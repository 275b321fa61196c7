import SmaliReport.SourceFile
import SmaliReport.Tree.Merge

/-!
The report tree of what a path leads to. A directory is walked: entries with the extension of
smali files are read as files, all other directories are walked in turn, and what has no header
that can be described is left out. Every entry is reached by the path of its directory and its own
name, and one whose path has become too long is left out as well. Trees have the texts of names, so
that siblings in a directory may have one name in the tree.
-/

namespace SmaliReport

namespace Leaf

/-- The text of a file's name, without the extension. -/
def nameOf (file : Name) : Text :=
  (('.' :: Tree.rootName).isSuffixOf? (Path.text file)).getD (Path.text file)

def ofFile? (file : Name) (bytes : List UInt8) : Option Leaf :=
  ofSmali? (nameOf file) (SourceFile.text ⟨bytes⟩)

end Leaf

namespace Tree

def isSmali (name : Name) : Bool := Path.hasExtension (Path.ofText rootName) name

mutual

/-- The tree of an entry with this path; `linked` reads what a link with this name in this place
leads to. -/
def ofNode? (linked : Place → Path → Name → Option Tree) (place : Place) (path : Path)
    (name : Name) :
    Node → Option Tree
  | .file bytes =>
    if isSmali name && Path.fits path then (Leaf.ofFile? name bytes).map .leaf else none
  | .link _ => linked place path name
  | .dir entries =>
    if isSmali name || !Path.fits path then none
    else dir? (Path.text name) (ofEntries linked (place ++ [name]) path entries)

/-- The trees of a directory's entries, in listing order. -/
def ofEntries (linked : Place → Path → Name → Option Tree) (place : Place) (path : Path) :
    List (Name × Node) → List Tree
  | [] => []
  | (name, node) :: rest =>
    (ofNode? linked place (Path.join path name) name node).toList ++
      ofEntries linked place path rest

end

/-- The tree of what a link leads to, with at most `links` links on the way. -/
def ofLink? (fs : FileSystem) (links : Nat) (place : Place) (path : Path) (name : Name) :
    Option Tree :=
  if !Path.fits path then none
  else
    match fs.follow true links place [name] with
    | .error _ => none
    | .ok arrival =>
      match fs.node? arrival.place with
      | some (.file bytes) => if isSmali name then (Leaf.ofFile? name bytes).map .leaf else none
      | some (.dir entries) =>
        if isSmali name then none
        else if arrival.links < links then
          dir? (Path.text name) (ofEntries (ofLink? fs arrival.links) arrival.place path entries)
        else none
      | _ => none
termination_by links

/-- The name of a directory as a root: its last name, if need be that of its canonical path. -/
def rootNameOf (fs : FileSystem) (path : Path) : Text :=
  match Path.fileName? path with
  | some name => Path.text name
  | none => Path.text (((fs.canonical path).toOption.bind Path.fileName?).getD path)

/-- A file that is named itself is read whatever its extension. -/
def read? (fs : FileSystem) (path : Path) : Option Tree :=
  match fs.find path with
  | .ok (arrival, .dir entries) =>
    dir? (rootNameOf fs path) (ofEntries (ofLink? fs arrival.links) arrival.place path entries)
  | .ok (_, .file bytes) => (Leaf.ofFile? ((Path.fileName? path).getD []) bytes).map .leaf
  | _ => none

/-- Does the source look like the output of a decompiler, with one root for each dex file? -/
def hasRoots (fs : FileSystem) (source : Path) : Bool :=
  fs.has (Path.join source (Path.ofText rootName))

/-- The entries of the source whose name starts like a root's, in listing order. -/
def roots (fs : FileSystem) (source : Path) : Except Failure (List Path) := do
  let entries ← FileError.during "Failed to list" source (fs.list source)
  let names := (entries.map (·.1)).filter fun name => rootName.isPrefixOf (Path.text name)
  .ok (names.map (Path.join source))

def readMerged? (fs : FileSystem) (roots : List Path) : Option Tree :=
  mergeRoots? (roots.filterMap (read? fs))

end Tree

end SmaliReport
