import SmaliReport.FileSystem.Path

/-!
A file system as a value: a tree of directories, each with its entries in listing order. A place
is the list of names that leads to it from the root.
-/

namespace SmaliReport

inductive Node where
  | file (bytes : List UInt8)
  | link (target : Path)
  | dir (entries : List (Name × Node))

abbrev Place := List Name

namespace Node

/-- What lies below a node at the end of these names. -/
def at? (node : Node) : Place → Option Node
  | [] => some node
  | name :: rest =>
    match node with
    | .dir entries => (entries.lookup name).bind (at? · rest)
    | _ => none

/-- The entries with a change made to the one of this name; a new one stands last. -/
def alter (name : Name) (change : Option Node → Option Node) :
    List (Name × Node) → List (Name × Node)
  | [] => (change none).toList.map fun node => (name, node)
  | (other, node) :: rest =>
    if other = name then (change (some node)).toList.map (fun node => (name, node)) ++ rest
    else (other, node) :: alter name change rest

/-- The entries with a change made at a place below directories that are there. -/
def alterAt (change : Option Node → Option Node) :
    Place → List (Name × Node) → List (Name × Node)
  | [], entries => entries
  | [name], entries => alter name change entries
  | name :: rest, entries =>
    alter name (fun
      | some (.dir inner) => some (.dir (alterAt change rest inner))
      | other => other) entries

end Node

structure FileSystem where
  entries : List (Name × Node) := []
  /-- The directory that relative paths start from. -/
  here : Place := []

/-- A computation on a file system, whose changes stay if it fails. -/
abbrev FileM (ε : Type) := ExceptT ε (StateM FileSystem)

namespace FileSystem

def node? (fs : FileSystem) (place : Place) : Option Node := (Node.dir fs.entries).at? place

/-- Puts a node at a place, instead of the one there or behind its directory's entries. -/
def put (fs : FileSystem) (place : Place) (node : Node) : FileSystem :=
  { fs with entries := Node.alterAt (fun _ => some node) place fs.entries }

def remove (fs : FileSystem) (place : Place) : FileSystem :=
  { fs with entries := Node.alterAt (fun _ => none) place fs.entries }

end FileSystem

end SmaliReport
