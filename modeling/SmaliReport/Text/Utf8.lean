import SmaliReport.Text.Basic

/-!
UTF-8. A reader takes one byte at a time and holds at most one unfinished sequence, so that
every byte string splits into scalars and broken stretches. `ofUtf8?` refuses a broken stretch
and `ofUtf8Lossy` writes U+FFFD for each.
-/

namespace SmaliReport.Text

/-- A sequence that `left` more bytes complete, the next of them between `low` and `high`. -/
structure Unfinished where
  left : Nat
  low : UInt8
  high : UInt8
  code : Nat

/-- What the bytes read so far stand for, latest first; `none` is a broken stretch. -/
structure Utf8Reader where
  read : List (Option Char) := []
  open? : Option Unfinished := none

namespace Utf8Reader

/-- A byte that stands at the start of a sequence. -/
def lead (read : List (Option Char)) (b : UInt8) : Utf8Reader :=
  let start (left : Nat) (low high : UInt8) (code : Nat) : Utf8Reader :=
    ⟨read, some ⟨left, low, high, code⟩⟩
  if b < 0x80 then ⟨some (Char.ofNat b.toNat) :: read, none⟩
  else if b < 0xC2 then ⟨none :: read, none⟩
  else if b < 0xE0 then start 1 0x80 0xBF (b.toNat - 0xC0)
  else if b = 0xE0 then start 2 0xA0 0xBF 0
  else if b = 0xED then start 2 0x80 0x9F 0xD
  else if b < 0xF0 then start 2 0x80 0xBF (b.toNat - 0xE0)
  else if b = 0xF0 then start 3 0x90 0xBF 0
  else if b < 0xF4 then start 3 0x80 0xBF (b.toNat - 0xF0)
  else if b = 0xF4 then start 3 0x80 0x8F 4
  else ⟨none :: read, none⟩

def step (r : Utf8Reader) (b : UInt8) : Utf8Reader :=
  match r.open? with
  | none => lead r.read b
  | some u =>
    if u.low ≤ b ∧ b ≤ u.high then
      let code := u.code * 64 + (b.toNat - 0x80)
      if u.left ≤ 1 then ⟨some (Char.ofNat code) :: r.read, none⟩
      else ⟨r.read, some ⟨u.left - 1, 0x80, 0xBF, code⟩⟩
    else lead (none :: r.read) b

def finish (r : Utf8Reader) : List (Option Char) :=
  (if r.open?.isSome then none :: r.read else r.read).reverse

end Utf8Reader

/-- The scalars of a byte string in order, with `none` for each longest broken stretch. -/
def scalars (bytes : List UInt8) : List (Option Char) :=
  (bytes.foldl Utf8Reader.step {}).finish

def ofUtf8? (bytes : List UInt8) : Option Text :=
  if (scalars bytes).all Option.isSome then some ((scalars bytes).filterMap id) else none

def ofUtf8Lossy (bytes : List UInt8) : Text := (scalars bytes).map (·.getD '\uFFFD')

def toUtf8 (t : Text) : List UInt8 := t.flatMap String.utf8EncodeChar

end SmaliReport.Text
