import SmaliReport.Tree.Basic

/-!
Merging trees. Directories of one name in one place become one, at the place of the first of
them, with the children of all of them merged in turn. Leaves are never merged.
-/

namespace SmaliReport.Tree

/-- Changes the children of the first directory with this name, or adds it at the end. -/
def intoDir (name : Text) (change : List Tree → List Tree) : List Tree → List Tree
  | [] => [.dir name (change [])]
  | .leaf l :: rest => .leaf l :: intoDir name change rest
  | .dir other children :: rest =>
    if other = name then .dir other (change children) :: rest
    else .dir other children :: intoDir name change rest

mutual

/-- Adds a tree behind the children there are, or into the directory of its name. -/
def addTo : Tree → List Tree → List Tree
  | .leaf l, siblings => siblings ++ [.leaf l]
  | .dir name children, siblings => intoDir name (addAllTo children) siblings

def addAllTo : List Tree → List Tree → List Tree
  | [], siblings => siblings
  | t :: rest, siblings => addAllTo rest (addTo t siblings)

end

/-- The tree with directories of one name merged at every depth. -/
def mergeNames : Tree → Tree
  | .leaf l => .leaf l
  | .dir name children => .dir name (addAllTo children [])

/-- One directory with the children of all. -/
def collapse? (name : Text) (trees : List Tree) : Option Tree :=
  dir? name (trees.flatMap children)

/-- The name of smali files' extension, of the roots a decompiler writes, and of what they merge
into. -/
def rootName : Text := "smali".toList

/-- The directories among the roots as one merged directory; leaves among them are left out. -/
def mergeRoots? (roots : List Tree) : Option Tree := (collapse? rootName roots).map mergeNames

end SmaliReport.Tree
