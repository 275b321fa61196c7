import SmaliReport.Number.Binary64

/-!
Values of configuration files, whatever the syntax of the file. A flag and a text can each be
written in several ways.
-/

namespace SmaliReport.Config

inductive Value where
  | null
  | bool (b : Bool)
  | integer (n : Int)
  | float (x : Binary64)
  | text (t : Text)
  | list (items : List Value)
  | table (entries : List (Text × Value))

namespace Value

/-- Numbers other than zero are true; so are some words in any case. -/
def bool? : Value → Option Bool
  | .bool b => some b
  | .integer n => some (n != 0)
  | .float x => some !x.isZero
  | .text t =>
    if (["1", "true", "on", "yes"].map String.toList).contains (Text.lower t) then some true
    else if (["0", "false", "off", "no"].map String.toList).contains (Text.lower t) then some false
    else none
  | _ => none

def text? : Value → Option Text
  | .text t => some t
  | .bool b => some (if b then "true" else "false").toList
  | .integer n => some (Text.ofInt n)
  | .float x => some x.text
  | _ => none

end Value

/-- An integer that fits 64 bits. -/
def integer? (n : Int) : Option Value :=
  if Int64.minValue.toInt ≤ n ∧ n ≤ Int64.maxValue.toInt then some (.integer n) else none

end SmaliReport.Config
