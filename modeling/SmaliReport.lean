import SmaliReport.CommandLine.Arguments
import SmaliReport.CommandLine.Program
import SmaliReport.Config.Json
import SmaliReport.Config.Scan
import SmaliReport.Config.Settings
import SmaliReport.Config.Toml
import SmaliReport.Config.Value
import SmaliReport.Config.Yaml.Cursor
import SmaliReport.Config.Yaml.Document
import SmaliReport.Config.Yaml.Node
import SmaliReport.Config.Yaml.Property
import SmaliReport.Config.Yaml.Scalar
import SmaliReport.Config.Yaml.Tokens
import SmaliReport.Convert
import SmaliReport.Description.Basic
import SmaliReport.Description.Read
import SmaliReport.Description.Report
import SmaliReport.FileSystem.Access
import SmaliReport.FileSystem.Basic
import SmaliReport.FileSystem.Path
import SmaliReport.Header
import SmaliReport.LogLevel
import SmaliReport.Main
import SmaliReport.Names.Descriptor
import SmaliReport.Names.StringTable
import SmaliReport.Number.Binary64
import SmaliReport.Payload.Message
import SmaliReport.Payload.Packing
import SmaliReport.Payload.Schema
import SmaliReport.Payload.Wire
import SmaliReport.Proofs.CommandLine.DryRun
import SmaliReport.Proofs.CommandLine.Flags
import SmaliReport.Proofs.CommandLine.Reading
import SmaliReport.Proofs.Config.Layers
import SmaliReport.Proofs.Convert.Again
import SmaliReport.Proofs.Convert.Conversion
import SmaliReport.Proofs.Convert.Frame
import SmaliReport.Proofs.Convert.Order
import SmaliReport.Proofs.Convert.Output
import SmaliReport.Proofs.Convert.Sources
import SmaliReport.Proofs.Description.Functions
import SmaliReport.Proofs.Description.Lookups
import SmaliReport.Proofs.Description.MethodDescriptors
import SmaliReport.Proofs.Description.Reports
import SmaliReport.Proofs.Description.TypeTables
import SmaliReport.Proofs.FileSystem.Change
import SmaliReport.Proofs.FileSystem.Content
import SmaliReport.Proofs.FileSystem.Directories
import SmaliReport.Proofs.FileSystem.Edits
import SmaliReport.Proofs.FileSystem.Kinds
import SmaliReport.Proofs.FileSystem.Links
import SmaliReport.Proofs.FileSystem.Names
import SmaliReport.Proofs.FileSystem.Remade
import SmaliReport.Proofs.FileSystem.Rooms
import SmaliReport.Proofs.FileSystem.Running
import SmaliReport.Proofs.FileSystem.Texts
import SmaliReport.Proofs.FileSystem.Walk
import SmaliReport.Proofs.FileSystem.Widths
import SmaliReport.Proofs.Header.Blocks
import SmaliReport.Proofs.Header.Indentation
import SmaliReport.Proofs.Header.Independence
import SmaliReport.Proofs.Header.Layout
import SmaliReport.Proofs.Names.Descriptors
import SmaliReport.Proofs.Names.Lookup
import SmaliReport.Proofs.Payload.BitStream
import SmaliReport.Proofs.Payload.Decoding
import SmaliReport.Proofs.Payload.Encoding
import SmaliReport.Proofs.Payload.Packing
import SmaliReport.Proofs.Payload.Reading
import SmaliReport.Proofs.Payload.Truncation
import SmaliReport.Proofs.Region.Literals
import SmaliReport.Proofs.Region.Search
import SmaliReport.Proofs.Region.Written
import SmaliReport.Proofs.Text.CodeUnits
import SmaliReport.Proofs.Text.Digits
import SmaliReport.Proofs.Text.Escapes
import SmaliReport.Proofs.Text.Fragments
import SmaliReport.Proofs.Text.Lines
import SmaliReport.Proofs.Text.Trimming
import SmaliReport.Proofs.Text.Utf8
import SmaliReport.Proofs.Tree.Accepted
import SmaliReport.Proofs.Tree.Collected
import SmaliReport.Proofs.Tree.Filling
import SmaliReport.Proofs.Tree.Grouping
import SmaliReport.Proofs.Tree.Listing
import SmaliReport.Proofs.Tree.Merge
import SmaliReport.Proofs.Tree.Outline
import SmaliReport.Proofs.Tree.Paths
import SmaliReport.Proofs.Tree.Reread
import SmaliReport.Proofs.Tree.Separate
import SmaliReport.Proofs.Tree.Walked
import SmaliReport.Proofs.Tree.Writable
import SmaliReport.Proofs.Tree.Written
import SmaliReport.Region
import SmaliReport.SourceFile
import SmaliReport.Text.Basic
import SmaliReport.Text.Digits
import SmaliReport.Text.Escape
import SmaliReport.Text.Utf8
import SmaliReport.Tree.Basic
import SmaliReport.Tree.Merge
import SmaliReport.Tree.Preview
import SmaliReport.Tree.Read
import SmaliReport.Tree.Write
