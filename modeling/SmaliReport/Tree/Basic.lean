import SmaliReport.Description.Read
import SmaliReport.Description.Report

/-!
Report trees: a leaf for each class with a readable header, in directories as the smali files
lie. A directory without children is never made.
-/

namespace SmaliReport

structure Leaf where
  name : Text
  header : Header
  description : Description
  deriving DecidableEq

def Leaf.report (l : Leaf) : Text := l.description.report

/-- The leaf of a smali text, if it has a header that can be described. -/
def Leaf.ofSmali? (name smali : Text) : Option Leaf := do
  let header ← Header.ofSmali? smali
  let description ← header.describe.toOption
  some ⟨name, header, description⟩

inductive Tree where
  | leaf (l : Leaf)
  | dir (name : Text) (children : List Tree)

namespace Tree

/-- The directory with these children; there is none without children. -/
def dir? (name : Text) (children : List Tree) : Option Tree :=
  if children.isEmpty then none else some (.dir name children)

def name : Tree → Text
  | .leaf l => l.name
  | .dir name _ => name

def isDir : Tree → Bool
  | .leaf _ => false
  | .dir _ _ => true

def children : Tree → List Tree
  | .leaf _ => []
  | .dir _ children => children

mutual

/-- The leaves at any depth, in order. -/
def leaves : Tree → List Leaf
  | .leaf l => [l]
  | .dir _ children => leavesOf children

def leavesOf : List Tree → List Leaf
  | [] => []
  | t :: rest => leaves t ++ leavesOf rest

end

end Tree

end SmaliReport
