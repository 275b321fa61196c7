import SmaliReport.Text.Digits

/-!
Floating-point numbers of 64 bits as far as texts show them: a decimal is rounded to the nearest
number, ties to even, and a number is written with the fewest digits that read back to it, of two
such decimals the nearer one, and never with an exponent.
-/

namespace SmaliReport

/-- A finite number is `significand * 2 ^ exponent`. -/
inductive Binary64 where
  | finite (negative : Bool) (significand : Nat) (exponent : Int)
  | infinite (negative : Bool)
  | nan
  deriving DecidableEq

namespace Binary64

/-- The fraction `num / den` times `base ^ exponent`. -/
def scale (base : Nat) (exponent : Int) (num den : Nat) : Nat × Nat :=
  if 0 ≤ exponent then (num * base.pow exponent.toNat, den)
  else (num, den * base.pow (-exponent).toNat)

/-- The nearest whole number, of two the even one. -/
def nearest (num den : Nat) : Nat :=
  let whole := num / den
  let twice := 2 * (num % den)
  if twice < den ∨ twice = den ∧ whole % 2 = 0 then whole else whole + 1

/-- The number nearest to `num / den`; its significand has 53 bits if the exponent allows. -/
def ofFraction (negative : Bool) (num den : Nat) : Binary64 :=
  if num = 0 then .finite negative 0 0
  else
    let guess : Int := num.log2 - den.log2
    let (n, d) := scale 2 (-guess) num den
    let log : Int := if d ≤ n then guess else guess - 1
    let exponent := max (log - 52) (-1074)
    let (n, d) := scale 2 (-exponent) num den
    let significand := nearest n d
    if 1024 ≤ exponent + significand.log2 then .infinite negative
    else if significand.log2 = 53 then .finite negative (significand / 2) (exponent + 1)
    else .finite negative significand exponent

/-- The number nearest to `digits * 10 ^ exponent`. -/
def ofDecimal (negative : Bool) (digits : Nat) (exponent : Int) : Binary64 :=
  let magnitude := exponent + (Text.ofNat digits).length
  if digits = 0 ∨ magnitude < -400 then .finite negative 0 0
  else if 400 < magnitude then .infinite negative
  else
    let (n, d) := scale 10 exponent digits 1
    ofFraction negative n d

/-- The magnitude as a fraction; what is not finite has none. -/
def fraction : Binary64 → Nat × Nat
  | .finite _ significand exponent => scale 2 exponent significand 1
  | _ => (0, 1)

/-- The number nearest to the product of two finite magnitudes. -/
def product (x y : Binary64) : Binary64 :=
  ofFraction false (x.fraction.1 * y.fraction.1) (x.fraction.2 * y.fraction.2)

/-- The number nearest to the quotient of two finite magnitudes. -/
def quotient (x y : Binary64) : Binary64 :=
  ofFraction false (x.fraction.1 * y.fraction.2) (x.fraction.2 * y.fraction.1)

def isZero : Binary64 → Bool
  | .finite _ significand _ => significand = 0
  | _ => false

/-- The decimal of `count` digits nearest to `num / den` that rounds to this number, if any.
`top` is the exponent of ten of the first digit. -/
def shortest? (x : Binary64) (num den : Nat) (top : Int) (count : Nat) : Option (Nat × Int) :=
  let exponent := top - count + 1
  let (n, d) := scale 10 (-exponent) num den
  let low := n / d
  let fits (digits : Nat) : Bool := ofDecimal false digits exponent = x
  match fits low, fits (low + 1) with
  | true, true => some (if 2 * (n % d) ≤ d then low else low + 1, exponent)
  | true, false => some (low, exponent)
  | false, true => some (low + 1, exponent)
  | false, false => none

/-- `digits * 10 ^ exponent` without exponent and without zeros behind the last place. -/
def positional (digits : Nat) (exponent : Int) : Text :=
  if 0 ≤ exponent then Text.ofNat (digits * Nat.pow 10 exponent.toNat)
  else
    let places := (-exponent).toNat
    let whole := Text.ofNat (digits / Nat.pow 10 places)
    let rest := Text.ofNat (digits % Nat.pow 10 places)
    let fraction := List.replicate (places - rest.length) '0' ++ rest
    let kept := (fraction.reverse.dropWhile (· = '0')).reverse
    if kept.isEmpty then whole else whole ++ '.' :: kept

def text : Binary64 → Text
  | .nan => "NaN".toList
  | .infinite negative => (if negative then "-inf" else "inf").toList
  | .finite negative significand exponent =>
    let sign := if negative then ['-'] else []
    if significand = 0 then sign ++ ['0']
    else
      let (num, den) := scale 2 exponent significand 1
      let top : Int :=
        if den ≤ num then (Text.ofNat (num / den)).length - 1
        else -(Text.ofNat (den / num)).length
      let counts := (List.range 17).map (· + 1)
      match counts.findSome? (shortest? (.finite false significand exponent) num den top) with
      | some (digits, exponent) => sign ++ positional digits exponent
      | none => sign ++ positional significand exponent

end Binary64

end SmaliReport
