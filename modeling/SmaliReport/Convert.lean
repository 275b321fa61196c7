import SmaliReport.Tree.Read
import SmaliReport.Tree.Write

/-!
Converting a source into a directory of reports. All checks and all reading come before the first
change: the old output directory is removed, made again, and the tree is written into it.
-/

namespace SmaliReport

structure Request where
  source : Path
  destination : Path
  /-- Walk the source as a whole even if it looks like a decompiler's output. -/
  all : Bool := false
  /-- Write into a destination that exists, instead of the reports there. -/
  force : Bool := false

inductive ConvertError where
  | sourceMissing (path : Path)
  | destinationExists (path : Path)
  | destinationNotDirectory (path : Path)
  | failed (f : Failure)
  deriving DecidableEq

def ConvertError.message : ConvertError → Text
  | .sourceMissing path => "Source file or directory does not exist: ".toList ++ path.text
  | .destinationExists path =>
    "Destination directory already exists: ".toList ++ path.text ++
      ". Use --force (or -f) to force overwrite".toList
  | .destinationNotDirectory path => "Destination is not a directory: ".toList ++ path.text
  | .failed f => f.message

inductive Outcome where
  | nothingFound
  | written (output : Path) (leaves : Nat)
  /-- The tree that would have been written. -/
  | preview (tree : Tree)

namespace Request

def outputName : Name := Path.of "KotlinClassMetadata"

def output (r : Request) : Path := Path.join r.destination outputName

def check (r : Request) (fs : FileSystem) : Except ConvertError Unit :=
  if !fs.has r.source then .error (.sourceMissing r.source)
  else if fs.has r.destination && !fs.isDir r.destination then
    .error (.destinationNotDirectory r.destination)
  else if fs.has r.destination && !r.force then .error (.destinationExists r.destination)
  else .ok ()

def isMultiRoot (r : Request) (fs : FileSystem) : Bool := !r.all && Tree.hasRoots fs r.source

def tree? (r : Request) (fs : FileSystem) : Except Failure (Option Tree) :=
  if r.isMultiRoot fs then (Tree.roots fs r.source).map (Tree.readMerged? fs)
  else .ok (Tree.read? fs r.source)

/-- Makes the output directory new and writes the tree into it. -/
def replaceOutput (r : Request) (tree : Tree) : FileM Failure Unit := do
  if r.force && (← get).has r.output then
    change "Failed to remove" r.output fun fs => fs.removeAll r.output
  changes "Failed to create" r.output (FileSystem.makeDirs r.output)
  tree.write r.output

def convert (r : Request) (dryRun : Bool) : FileM ConvertError Outcome := do
  let fs ← get
  r.check fs
  match ← (r.tree? fs).mapError ConvertError.failed with
  | none => return .nothingFound
  | some tree =>
    if dryRun then return .preview tree
    ExceptT.adapt .failed (r.replaceOutput tree)
    return .written r.output tree.leaves.length

end Request

end SmaliReport
