import SmaliReport.Config.Scan
import SmaliReport.Config.Value

/-!
TOML documents. The values are scanned line by line into a tree of items that remembers how each
table came about, because a key may be assigned once, and a table be opened by one header only.
-/

namespace SmaliReport.Config.Toml

open Scan

/-! ### Lines and strings -/

/-- A character that may stand in a comment or a string on one line. -/
def isInLine (c : Char) : Bool := c = '\t' || ('\x20' ≤ c && c ≠ '\x7F')

def blanks : Scan Unit := do
  let _ ← takeWhile fun c => c = ' ' || c = '\t'

def newline : Scan Unit := exactly "\n" <|> exactly "\r\n"

def comment : Scan Unit := do
  exactly "#"
  let _ ← takeWhile isInLine

/-- What may stand behind an expression. -/
def lineEnd : Scan Unit := do
  blanks
  let _ ← optional comment
  newline <|> atEnd

/-- Blanks, comments and line ends between the parts of an array or inline table. -/
def gap : Scan Unit := do
  let _ ← many ((do let _ ← char fun c => c = ' ' || c = '\t') <|> newline <|>
    (comment *> newline))

def scalarOf (code : Nat) : Scan Char := do
  guard code.isValidChar
  return Char.ofNat code

/-- What a backslash and the characters behind it stand for. -/
def escape : Scan Char := do
  exactly "\\"
  match ← any with
  | 'b' => return '\x08'
  | 't' => return '\t'
  | 'n' => return '\n'
  | 'f' => return '\x0C'
  | 'r' => return '\r'
  | 'e' => return '\x1B'
  | '"' => return '"'
  | '\\' => return '\\'
  | 'x' => digits 16 2 >>= scalarOf
  | 'u' => digits 16 4 >>= scalarOf
  | 'U' => digits 16 8 >>= scalarOf
  | _ => failure

def basicString : Scan Text := do
  exactly "\""
  let t ← many (escape <|> char fun c => isInLine c && c ≠ '"' && c ≠ '\\')
  exactly "\""
  return t

def literalString : Scan Text := do
  exactly "'"
  let t ← takeWhile fun c => isInLine c && c ≠ '\''
  exactly "'"
  return t

/-- Up to two of the quotes that end a text of several lines belong to the text. -/
def closing (quote : Char) : Scan Text := do
  let run ← takeWhile (· = quote)
  guard (3 ≤ run.length ∧ run.length ≤ 5)
  return run.drop 3

/-- Fewer than three quotes within a text of several lines. -/
def innerQuotes (quote : Char) : Scan Text := do
  let run ← takeWhile1 (· = quote)
  guard (run.length < 3)
  return run

/-- A backslash at the end of a line joins it to the next text that is not blank. -/
def joinedLines : Scan Text := do
  exactly "\\"
  blanks
  newline
  let _ ← many ((do let _ ← char fun c => c = ' ' || c = '\t') <|> newline)
  return []

def lineFeed : Scan Text := do
  newline
  return ['\n']

def longBasicString : Scan Text := do
  exactly "\"\"\""
  let _ ← optional newline
  let parts ← many (joinedLines <|> ([·]) <$> escape <|> innerQuotes '"' <|> lineFeed <|>
    takeWhile1 fun c => isInLine c && c ≠ '"' && c ≠ '\\')
  return parts.flatten ++ (← closing '"')

def longLiteralString : Scan Text := do
  exactly "'''"
  let _ ← optional newline
  let parts ← many (innerQuotes '\'' <|> lineFeed <|>
    takeWhile1 fun c => isInLine c && c ≠ '\'')
  return parts.flatten ++ (← closing '\'')

def string : Scan Text := longBasicString <|> longLiteralString <|> basicString <|> literalString

/-- One or more simple keys with dots between them. -/
def key : Scan (List Text) := separated1 (simple <* blanks) (exactly "." *> blanks)
where
  simple : Scan Text :=
    basicString <|> literalString <|> takeWhile1 fun c => c.isAlphanum || c = '_' || c = '-'
  separated1 (item : Scan Text) (mark : Scan Unit) : Scan (List Text) := do
    return (← item) :: (← many (mark *> item))

/-! ### Numbers and dates -/

/-- Digits of a base with single underscores between them. -/
def digitRun (base : Nat) : Scan Text := do
  let run ← takeWhile1 fun c => Text.isDigit base c || c = '_'
  guard ((run.splitOn '_').all (· ≠ []))
  return run.filter (· ≠ '_')

def sign : Scan Bool := (exactly "-" *> pure true) <|> (exactly "+" *> pure false) <|> pure false

def basedInteger : Scan Value := do
  let base ← (exactly "0x" *> pure 16) <|> (exactly "0o" *> pure 8) <|> (exactly "0b" *> pure 2)
  liftM (integer? (Text.value base (← digitRun base)))

/-- Decimal digits without a leading zero. -/
def wholeDigits : Scan Text := do
  let run ← digitRun 10
  guard (run.length = 1 ∨ run.head? ≠ some '0')
  return run

def exponent : Scan Int := do
  let _ ← char fun c => c = 'e' || c = 'E'
  let negative ← sign
  let n := Text.value 10 (← digitRun 10)
  return if negative then -(n : Int) else n

def decimal : Scan Value := do
  let negative ← sign
  let whole ← wholeDigits
  let fraction ← optional (exactly "." *> digitRun 10)
  let power ← optional exponent
  if fraction.isNone && power.isNone then
    let n := Text.value 10 whole
    liftM (integer? (if negative then -(n : Int) else n))
  else
    let places := fraction.getD []
    match Binary64.ofDecimal negative (Text.value 10 (whole ++ places))
        (power.getD 0 - places.length) with
    | .finite negative significand exponent => return .float (.finite negative significand exponent)
    | _ => failure

def special : Scan Value := do
  let negative ← sign
  (exactly "inf" *> pure (.float (.infinite negative))) <|>
    (exactly "nan" *> pure (.float .nan))

def daysIn (year month : Nat) : Nat :=
  if month = 2 then
    if year % 4 = 0 ∧ (year % 100 ≠ 0 ∨ year % 400 = 0) then 29 else 28
  else if month ∈ [4, 6, 9, 11] then 30 else 31

/-- A number of `width` digits between the bounds, as it was written. -/
def ranged (width low high : Nat) : Scan Text := do
  let t ← get
  let n ← digits 10 width
  guard (low ≤ n ∧ n ≤ high)
  return t.take width

def date : Scan Text := do
  let year ← ranged 4 0 9999
  exactly "-"
  let month ← ranged 2 1 12
  exactly "-"
  let day ← ranged 2 1 (daysIn (Text.value 10 year) (Text.value 10 month))
  return year ++ '-' :: month ++ '-' :: day

/-- Seconds may be missing. Of a fraction of them nanoseconds are the last that counts, and zeros at
the end are left out. -/
def time : Scan Text := do
  let hour ← ranged 2 0 23
  exactly ":"
  let minute ← ranged 2 0 59
  let second ← optional (exactly ":" *> ranged 2 0 60)
  let fraction ← optional do
    guard second.isSome
    exactly "."
    takeWhile1 (Text.isDigit 10)
  let shown := (second.map (':' :: ·)).getD [] ++ (fraction.map fun places =>
    let kept := ((places.take 9).reverse.dropWhile (· = '0')).reverse
    '.' :: (if kept.isEmpty then ['0'] else kept)).getD []
  return hour ++ ':' :: minute ++ shown

/-- An offset of zero has a plus sign. -/
def offset : Scan Text :=
  (do
    let _ ← char fun c => c = 'Z' || c = 'z'
    return ['Z']) <|>
  (do
    let mark ← char fun c => c = '+' || c = '-'
    let hour ← ranged 2 0 23
    exactly ":"
    let minute ← ranged 2 0 59
    let mark := if hour = ['0', '0'] ∧ minute = ['0', '0'] then '+' else mark
    return mark :: hour ++ ':' :: minute)

def moment : Scan Text :=
  (do
    let day ← date
    let rest ← optional do
      let _ ← char fun c => c = 'T' || c = 't' || c = ' '
      let clock ← time
      return 'T' :: clock ++ (← optional offset).getD []
    return day ++ rest.getD []) <|> time

/-! ### Items -/

/-- How a table came about: by its own header, by a header below it, or by a dotted key. -/
inductive Origin where
  | header | implied | dotted

inductive Item where
  | value (v : Value)
  | table (origin : Origin) (entries : List (Text × Item))
  | tables (elements : List (List (Text × Item)))

abbrev Items := List (Text × Item)

mutual

def Item.toValue : Item → Value
  | .value v => v
  | .table _ entries => .table (Items.toEntries entries)
  | .tables elements => .list (Items.toValues elements)

def Items.toEntries : List (Text × Item) → List (Text × Value)
  | [] => []
  | (key, item) :: rest => (key, item.toValue) :: Items.toEntries rest

def Items.toValues : List (List (Text × Item)) → List Value
  | [] => []
  | entries :: rest => .table (Items.toEntries entries) :: Items.toValues rest

end

def Items.replace (items : Items) (key : Text) (item : Item) : Items :=
  items.map fun (other, old) => (other, if other = key then item else old)

/-- Assigns a key that has no value yet. A dotted key opens tables that have no header, and its
last table came about by a dotted key. -/
def assign (v : Value) : List Text → Items → Option Items
  | [], _ => none
  | [key], items => if (items.lookup key).isSome then none else some (items ++ [(key, .value v)])
  | key :: rest, items =>
    match items.lookup key with
    | none => (assign v rest []).map fun inner => items ++ [(key, .table .dotted inner)]
    | some (.table .header _) => none
    | some (.table .implied inner) =>
      if rest.length = 1 then none
      else (assign v rest inner).map fun inner => Items.replace items key (.table .implied inner)
    | some (.table .dotted inner) =>
      (assign v rest inner).map fun inner => Items.replace items key (.table .dotted inner)
    | some (.tables elements) =>
      if rest.length = 1 then none
      else (assign v rest (elements.getLast?.getD [])).map fun inner =>
        Items.replace items key (.tables (elements.dropLast ++ [inner]))
    | some (.value _) => none

/-- Makes a change in the table at a path; of several tables in the last one. -/
def below (change : Items → Option Items) : List Text → Items → Option Items
  | [], items => change items
  | key :: rest, items =>
    match items.lookup key with
    | none => (below change rest []).map fun inner => items ++ [(key, .table .implied inner)]
    | some (.table origin inner) =>
      (below change rest inner).map fun inner => Items.replace items key (.table origin inner)
    | some (.tables elements) =>
      (below change rest (elements.getLast?.getD [])).map fun inner =>
        Items.replace items key (.tables (elements.dropLast ++ [inner]))
    | some (.value _) => none

def openTable (key : Text) (items : Items) : Option Items :=
  match items.lookup key with
  | none => some (items ++ [(key, .table .header [])])
  | some (.table .implied inner) => some (Items.replace items key (.table .header inner))
  | some _ => none

def addTable (key : Text) (items : Items) : Option Items :=
  match items.lookup key with
  | none => some (items ++ [(key, .tables [[]])])
  | some (.tables elements) => some (Items.replace items key (.tables (elements ++ [[]])))
  | some _ => none

def scalar : Scan Value :=
  Value.text <$> string <|> (exactly "true" *> pure (.bool true)) <|>
    (exactly "false" *> pure (.bool false)) <|> Value.text <$> moment <|> special <|>
    basedInteger <|> decimal

/-- Arrays and inline tables nest to at most `depth`. -/
def value : (depth : Nat) → Scan Value
  | 0 => scalar
  | depth + 1 => scalar <|> array (value depth) <|> inlineTable (value depth)
where
  array (item : Scan Value) : Scan Value := do
    exactly "["
    gap
    let items ← separated (item <* gap) (exactly "," *> gap)
    if !items.isEmpty then let _ ← optional (exactly "," *> gap)
    exactly "]"
    return .list items
  inlineTable (item : Scan Value) : Scan Value := do
    exactly "\x7b"
    gap
    let pairs ← separated (do
      let path ← key
      exactly "="
      blanks
      return (path, ← item <* gap)) (exactly "," *> gap)
    if !pairs.isEmpty then let _ ← optional (exactly "," *> gap)
    exactly "\x7d"
    let items ← liftM (pairs.foldlM (fun items (path, v) => assign v path items) ([] : Items))
    return .table (Items.toEntries items)

/-! ### Documents -/

inductive Line where
  | blank
  | assignment (path : List Text) (v : Value)
  | header (path : List Text)
  | arrayHeader (path : List Text)

def line : Scan Line := do
  blanks
  let line ← arrayHeader <|> header <|> assignment <|> pure .blank
  lineEnd
  return line
where
  assignment : Scan Line := do
    let path ← key
    exactly "="
    blanks
    return .assignment path (← value 80)
  header : Scan Line := do
    exactly "["
    blanks
    let path ← key
    exactly "]"
    return .header path
  arrayHeader : Scan Line := do
    exactly "[["
    blanks
    let path ← key
    exactly "]]"
    return .arrayHeader path

/-- The items so far, and the path of the last header. -/
abbrev Document := Items × List Text

def Document.add (d : Document) : Line → Option Document
  | .blank => some d
  | .assignment path v => (below (assign v path) d.2 d.1).map (·, d.2)
  | .header path =>
    (below (openTable (path.getLastD [])) path.dropLast d.1).map (·, path)
  | .arrayHeader path =>
    (below (addTable (path.getLastD [])) path.dropLast d.1).map (·, path)

/-- The value of a document, if it is one. -/
def read? (t : Text) : Option Value := do
  let lines ← (many (do
    guard !(← get).isEmpty
    line)).run? t
  let (items, _) ← lines.foldlM Document.add (([], []) : Document)
  some (.table (Items.toEntries items))

end SmaliReport.Config.Toml
