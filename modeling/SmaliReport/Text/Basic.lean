/-!
Texts are lists of Unicode scalars. A fragment of a text is found, cut off or replaced by its
first occurrence, and the characters Unicode calls White_Space are blank.
-/

namespace SmaliReport

abbrev Text := List Char

namespace Text

/-- Does `part` stand anywhere in the text? -/
def contains (part : Text) : Text → Bool
  | [] => part.isEmpty
  | c :: rest => part.isPrefixOf (c :: rest) || contains part rest

/-- The texts before and after the first `mark`. -/
def cut? (mark : Char) : Text → Option (Text × Text)
  | [] => none
  | c :: rest =>
    if c = mark then some ([], rest) else (cut? mark rest).map fun (l, r) => (c :: l, r)

/-- `new` stands wherever `old` stood. -/
def swap (old new : Char) (t : Text) : Text := t.map fun c => if c = old then new else c

/-- The entries one after another with `mark` between neighbours. -/
def joined (mark : String) (entries : List Text) : Text := mark.toList.intercalate entries

/- The characters with the property White_Space. -/
def blankRanges : List (Nat × Nat) :=
  [(0x09, 0x0D), (0x20, 0x20), (0x85, 0x85), (0xA0, 0xA0), (0x1680, 0x1680), (0x2000, 0x200A),
   (0x2028, 0x2029), (0x202F, 0x202F), (0x205F, 0x205F), (0x3000, 0x3000)]

def isBlank (c : Char) : Bool := blankRanges.any fun (low, high) => low ≤ c.toNat && c.toNat ≤ high

/-- The text without the blanks at either end. -/
def trim (t : Text) : Text := ((t.dropWhile isBlank).reverse.dropWhile isBlank).reverse

/-- A line feed ends a line, together with a carriage return right before it. What follows the
last line feed is a line too, unless it is empty. -/
def lines (t : Text) : List Text :=
  let pieces := t.splitOn '\n'
  let ended := pieces.dropLast.map fun line => (['\r'].isSuffixOf? line).getD line
  ended ++ (pieces.getLast?.toList.filter (· ≠ []))

/-- ASCII letters in the lower case, and the Kelvin sign, which has one of them as its lower case.
All else is left as it is. -/
def lower (t : Text) : Text := t.map fun c => if c = '\u212A' then 'k' else c.toLower

end Text

end SmaliReport
