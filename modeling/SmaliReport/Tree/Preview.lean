import SmaliReport.Tree.Basic

/-!
A tree as lines. Every node has one line; lines of children hang below their parent's, three
columns further right, behind a branch that reaches from the parent to its last child.
-/

namespace SmaliReport

inductive Colour where
  | blue | green | yellow

def Colour.code : Colour → String
  | .blue => "34"
  | .green => "32"
  | .yellow => "33"

/-- The text between the terminal codes that set the colour and reset it. -/
def Colour.paint (colour : Colour) (t : Text) : Text :=
  s!"\x1b[{colour.code}m".toList ++ t ++ "\x1b[39m".toList

namespace Tree

def label (coloured : Bool) (t : Tree) : Text :=
  let paint (colour : Colour) : Text := if coloured then colour.paint t.name else t.name
  if t.isDir then paint .blue ++ ['/'] else paint .green ++ ".txt".toList

/-- Lines with `first` before the first of them and `later` before the others. -/
def hang (first later : String) : List Text → List Text
  | [] => []
  | line :: rest => (first.toList ++ line) :: rest.map (later.toList ++ ·)

mutual

def previewLines (coloured : Bool) : Tree → List Text
  | .leaf l => [label coloured (.leaf l)]
  | .dir name children => label coloured (.dir name children) :: childLines coloured children

def childLines (coloured : Bool) : List Tree → List Text
  | [] => []
  | [last] => hang "└─ " "   " (previewLines coloured last)
  | t :: rest => hang "├─ " "│  " (previewLines coloured t) ++ childLines coloured rest

end

/-- Each line with a line feed behind it. -/
def preview (coloured : Bool) (t : Tree) : Text :=
  (previewLines coloured t).flatMap (· ++ ['\n'])

end Tree

end SmaliReport
