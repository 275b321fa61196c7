import SmaliReport.Config.Scan
import SmaliReport.Config.Value

/-!
JSON documents. Of two members with one name the later one counts. Integers that do not fit 64
bits are floating-point numbers, as far as 64 bits hold their digits, and numbers beyond all of
these are refused.
-/

namespace SmaliReport.Config.Json

open Scan

def gap : Scan Unit := do
  let _ ← takeWhile fun c => c = ' ' || c = '\t' || c = '\n' || c = '\r'

/-- The scalar of one `\u` escape, or of two that form a surrogate pair. -/
def unicode : Scan Char := do
  let first ← digits 16 4
  if 0xD800 ≤ first ∧ first < 0xDC00 then
    exactly "\\u"
    let second ← digits 16 4
    guard (0xDC00 ≤ second ∧ second < 0xE000)
    return Char.ofNat (0x10000 + (first - 0xD800) * 0x400 + (second - 0xDC00))
  else
    guard first.isValidChar
    return Char.ofNat first

def escape : Scan Char := do
  exactly "\\"
  match ← any with
  | 'b' => return '\x08'
  | 't' => return '\t'
  | 'n' => return '\n'
  | 'f' => return '\x0C'
  | 'r' => return '\r'
  | '"' => return '"'
  | '\\' => return '\\'
  | '/' => return '/'
  | 'u' => unicode
  | _ => failure

def string : Scan Text := do
  exactly "\""
  let t ← many (escape <|> char fun c => '\x20' ≤ c && c ≠ '"' && c ≠ '\\')
  exactly "\""
  return t

def exponent : Scan Int := do
  let _ ← char fun c => c = 'e' || c = 'E'
  let negative ← (exactly "-" *> pure true) <|> (exactly "+" *> pure false) <|> pure false
  let n := Text.value 10 (← takeWhile1 (Text.isDigit 10))
  return if negative then -(n : Int) else n

/-- Appends digits to a number as long as 64 bits hold it, and returns the digits left over. -/
def appended : Nat → Text → Nat × Text
  | n, [] => (n, [])
  | n, c :: rest =>
    let longer := n * 10 + Text.value 10 [c]
    if longer ≤ 0xFFFFFFFFFFFFFFFF then appended longer rest else (n, c :: rest)

/-- Digits times a power of ten, both of them rounded before they are multiplied. Powers beyond
`10 ^ 308` are divided by in steps, of which three make any number zero. -/
def scaled (x : Binary64) (exponent : Int) : Option Binary64 := go 4 x exponent
where
  power (n : Nat) : Binary64 := Binary64.ofFraction false (Nat.pow 10 n) 1
  go : Nat → Binary64 → Int → Option Binary64
    | 0, x, _ => some x
    | fuel + 1, x, exponent =>
      if exponent.natAbs ≤ 308 then
        if 0 ≤ exponent then
          match x.product (power exponent.natAbs) with
          | .infinite _ => none
          | y => some y
        else some (x.quotient (power exponent.natAbs))
      else if x.isZero then some x
      else if 0 ≤ exponent then none
      else go fuel (x.quotient (power 308)) (exponent + 308)

def number : Scan Value := do
  let negative ← (exactly "-" *> pure true) <|> pure false
  let whole ← takeWhile1 (Text.isDigit 10)
  guard (whole.length = 1 ∨ whole.head? ≠ some '0')
  let fraction ← optional (exactly "." *> takeWhile1 (Text.isDigit 10))
  let power ← optional exponent
  let n := Text.value 10 whole
  let small := integer? (if negative then -(n : Int) else n)
  if fraction.isNone && power.isNone && !(negative && n = 0) && small.isSome then
    liftM small
  else
    let (n, beyond) := appended 0 whole
    let places := fraction.getD []
    let (n, left) := appended n places
    let exponent := power.getD 0 + beyond.length - (places.length - left.length)
    match ← liftM (scaled (Binary64.ofFraction false n 1) exponent) with
    | .finite _ significand exponent => return .float (.finite negative significand exponent)
    | _ => failure

/-- Adds a member, in the place of an earlier one of its name. -/
def addMember (members : List (Text × Value)) (member : Text × Value) : List (Text × Value) :=
  members.filter (·.1 ≠ member.1) ++ [member]

def scalar : Scan Value :=
  (exactly "null" *> pure .null) <|> (exactly "true" *> pure (.bool true)) <|>
    (exactly "false" *> pure (.bool false)) <|> Value.text <$> string <|> number

/-- Arrays and objects nest to at most `depth`. -/
def value : (depth : Nat) → Scan Value
  | 0 => scalar
  | depth + 1 => scalar <|> array (value depth) <|> object (value depth)
where
  array (item : Scan Value) : Scan Value := do
    exactly "["
    gap
    let items ← separated (item <* gap) (exactly "," *> gap)
    exactly "]"
    return .list items
  object (item : Scan Value) : Scan Value := do
    exactly "\x7b"
    gap
    let members ← separated (do
      let name ← string
      gap
      exactly ":"
      gap
      return (name, ← item <* gap)) (exactly "," *> gap)
    exactly "\x7d"
    return .table (members.foldl addMember [])

/-- The value of a document, if it is one. -/
def read? (t : Text) : Option Value := (gap *> value 127 <* gap).run? t

end SmaliReport.Config.Json
