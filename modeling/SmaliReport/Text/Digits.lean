import SmaliReport.Text.Basic

/-!
Numbers written with ASCII digits. `number?` reads a non-empty run of digits of one base to its
exact value, whatever its length; `ofNat` and `ofInt` write decimals.
-/

namespace SmaliReport.Text

/-- The value of a digit below `base`; letters of either case count on from ten. -/
def digit? (base : Nat) (c : Char) : Option Nat :=
  let value :=
    if '0' ≤ c ∧ c ≤ '9' then c.toNat - '0'.toNat
    else if 'a' ≤ c ∧ c ≤ 'z' then c.toNat - 'a'.toNat + 10
    else if 'A' ≤ c ∧ c ≤ 'Z' then c.toNat - 'A'.toNat + 10
    else base
  if value < base then some value else none

def isDigit (base : Nat) (c : Char) : Bool := (digit? base c).isSome

/-- The value of digits read from the left. -/
def value (base : Nat) (digits : Text) : Nat :=
  digits.foldl (fun n c => n * base + (digit? base c).getD 0) 0

def number? (base : Nat) (t : Text) : Option Nat :=
  if !t.isEmpty && t.all (isDigit base) then some (value base t) else none

def ofNat (n : Nat) : Text := Nat.toDigits 10 n

def ofInt : Int → Text
  | .ofNat n => ofNat n
  | .negSucc n => '-' :: ofNat (n + 1)

end SmaliReport.Text
