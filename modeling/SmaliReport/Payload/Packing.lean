import SmaliReport.Text.Basic

/-!
The bytes that payload texts carry. Behind a leading U+0000 each character is one byte. All other
texts, also behind a leading U+0001, hold groups of seven bits, each stored plus one modulo 128;
the groups in a row, least significant bit first, are the bits of the bytes.
-/

namespace SmaliReport.Payload

/-- The low eight bits of each character. -/
def lowBytes (t : Text) : List UInt8 := t.map fun c => c.toNat.toUInt8

/-- The group of seven bits stored as `b`. -/
def group (b : UInt8) : UInt8 := (b + 0x7F) &&& 0x7F

/-- Byte `k` of the bit stream: it starts in group `8 k / 7` and always ends in the next one. -/
def packedByte? (groups : Array UInt8) (k : Nat) : Option UInt8 := do
  let bit := 8 * k % 7
  let low ← groups[8 * k / 7]?
  let high ← groups[8 * k / 7 + 1]?
  some (low.toNat >>> bit ||| high.toNat <<< (7 - bit)).toUInt8

/-- The whole bytes of the bit stream; bits that fill no byte are left over. -/
def repack (groups : Array UInt8) : List UInt8 :=
  (List.range (7 * groups.size / 8)).filterMap (packedByte? groups)

def unpackGroups (t : Text) : List UInt8 := repack ((lowBytes t).map group).toArray

/-- The marker counts only at the start of the first text. -/
def bytesOf : List Text → List UInt8
  | ('\x00' :: first) :: rest => lowBytes (first ++ rest.flatten)
  | ('\x01' :: first) :: rest => unpackGroups (first ++ rest.flatten)
  | texts => unpackGroups texts.flatten

end SmaliReport.Payload
