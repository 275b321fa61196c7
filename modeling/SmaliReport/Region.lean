import SmaliReport.Text.Digits

/-!
The metadata block of a smali file and its fields. A region is the lines strictly between the first
line that holds an opening mark and the next line that holds a closing mark, or up to the last line.
In it `key = value` holds one value on its line; `key = {` opens an array with one element a line,
closed by the next line that holds `}`. Values and elements are stripped of blanks, one comma and
one pair of quotes, in this order.
-/

namespace SmaliReport

abbrev Region := List Text

namespace Region

/-- The lines behind the first one with `opening`, up to the next one with `closing`. -/
def between (opening closing : Text) (lines : List Text) : Region :=
  ((lines.dropWhile fun line => !Text.contains opening line).drop 1).takeWhile
    fun line => !Text.contains closing line

def openingMark : Text := ".annotation runtime Lkotlin".toList

def closingMark : Text := ".end annotation".toList

/-- The region of the first runtime annotation of the `kotlin` packages. -/
def ofSmali (smali : Text) : Region := between openingMark closingMark smali.lines

/-- A value as it stands in its line, without blanks around it, a comma behind it, and quotes. -/
def cleaned (raw : Text) : Text :=
  let value := ([','].isSuffixOf? raw.trim).getD raw.trim
  ((['"'].isPrefixOf? value).bind fun inner => ['"'].isSuffixOf? inner).getD value

/-- The value behind the first `=` of the first line that starts with the key; empty without one. -/
def single (key : Text) (region : Region) : Text :=
  match region.find? fun line => (key ++ " =".toList).isPrefixOf line.trim with
  | none => []
  | some line => ((Text.cut? '=' line).map fun (_, value) => cleaned value).getD []

/-- `0x` and hexadecimal digits, for the non-negative 32-bit integers. -/
def hexLiteral? (value : Text) : Option Int32 := do
  let digits ← "0x".toList.isPrefixOf? value.trim
  let n ← Text.number? 16 digits
  if n ≤ 0x7FFFFFFF then some (Int32.ofNat n) else none

def integer (key : Text) (default : Int32) (region : Region) : Int32 :=
  (hexLiteral? (single key region)).getD default

/-- The cleaned elements of an array; one without elements has those of `default`. -/
def elements (key : Text) (default : List Text) (region : Region) : List Text :=
  let body := between (key ++ " = \x7b".toList) "\x7d".toList region
  (if body.isEmpty then default else body).map cleaned

end Region

end SmaliReport
