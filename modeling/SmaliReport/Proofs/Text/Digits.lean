import Mathlib.Data.List.Forall2
import Mathlib.Data.Nat.Digits.Defs
import Mathlib.Tactic.Ring
import SmaliReport.Text.Digits

/-!
Digits and their places. The hexadecimal digits are the sixteen of core and their capitals, and a
number is read just of a row of them, as the sum in which each digit counts by its place.
-/

namespace SmaliReport.Text

theorem digit_lt {base n : Nat} {c : Char} (read : digit? base c = some n) : n < base := by
  unfold digit? at read
  dsimp only at read
  generalize (if '0' ≤ c ∧ c ≤ '9' then c.toNat - '0'.toNat
    else if 'a' ≤ c ∧ c ≤ 'z' then c.toNat - 'a'.toNat + 10
    else if 'A' ≤ c ∧ c ≤ 'Z' then c.toNat - 'A'.toNat + 10 else base) = digit at read
  split at read
  · rename_i below
    exact Option.some.inj read ▸ below
  · cases read

theorem hex_digit_range (c : Char) (hex : isDigit 16 c = true) :
    (48 ≤ c.toNat ∧ c.toNat ≤ 57) ∨ (97 ≤ c.toNat ∧ c.toNat ≤ 122) ∨
      (65 ≤ c.toNat ∧ c.toNat ≤ 90) := by
  unfold isDigit digit? at hex
  by_cases digit : '0' ≤ c ∧ c ≤ '9'
  · exact .inl digit
  · by_cases small : 'a' ≤ c ∧ c ≤ 'z'
    · exact .inr (.inl small)
    · by_cases capital : 'A' ≤ c ∧ c ≤ 'Z'
      · exact .inr (.inr capital)
      · simp [digit, small, capital] at hex

theorem hex_digit_visible (c : Char) (hex : isDigit 16 c = true) : isBlank c = false := by
  have range := hex_digit_range c hex
  simp only [isBlank, blankRanges, List.any_cons, List.any_nil, Bool.or_false, Bool.or_eq_false_iff,
    Bool.and_eq_false_iff, decide_eq_false_iff_not]
  omega

theorem digit_digitChar : ∀ d < 16, digit? 16 (Nat.digitChar d) = some d := by decide

/-- The hexadecimal digits of either case. -/
def HexDigit (d : Nat) (c : Char) : Prop :=
  d < 16 ∧ (c = Nat.digitChar d ∨ c = (Nat.digitChar d).toUpper)

instance (d : Nat) (c : Char) : Decidable (HexDigit d c) := inferInstanceAs (Decidable (_ ∧ _))

theorem digit_eq_some_iff (c : Char) (d : Nat) : digit? 16 c = some d ↔ HexDigit d c := by
  constructor
  · intro read
    have range := hex_digit_range c (by rw [isDigit, read, Option.isSome_some])
    have ascii : ∀ n < 128, ∀ d ∈ digit? 16 (Char.ofNat n),
        Char.ofNat n = Nat.digitChar d ∨ Char.ofNat n = (Nat.digitChar d).toUpper := by decide
    have letter := ascii c.toNat (by omega) d (by rwa [Char.ofNat_toNat])
    rw [Char.ofNat_toNat] at letter
    exact ⟨digit_lt read, letter⟩
  · rintro ⟨small, rfl | rfl⟩
    · exact digit_digitChar d small
    · have capital : ∀ d < 16, digit? 16 (Nat.digitChar d).toUpper = some d := by decide
      exact capital d small

theorem all_digits_iff (digits : Text) :
    digits.all (isDigit 16) = true ↔ ∃ ds, List.Forall₂ HexDigit ds digits := by
  induction digits with
  | nil => simp
  | cons c digits ih =>
    rw [List.all_cons, Bool.and_eq_true, ih, isDigit, Option.isSome_iff_exists]
    simp only [digit_eq_some_iff, List.forall₂_cons_right_iff]
    constructor
    · rintro ⟨⟨d, first⟩, ds, rest⟩
      exact ⟨d :: ds, d, ds, first, rest, rfl⟩
    · rintro ⟨_, d, ds, first, rest, rfl⟩
      exact ⟨⟨d, first⟩, ds, rest⟩

/-- The number with more digits written behind it. -/
def extended (base n : Nat) (digits : Text) : Nat :=
  digits.foldl (fun n c => n * base + (digit? base c).getD 0) n

theorem value_eq_extended (base : Nat) (digits : Text) :
    value base digits = extended base 0 digits := rfl

theorem extended_cons {base : Nat} {c : Char} {d : Nat} (read : digit? base c = some d) (n : Nat)
    (digits : Text) : extended base n (c :: digits) = extended base (n * base + d) digits := by
  rw [extended, List.foldl_cons, read, Option.getD_some, extended]

theorem le_extended {base : Nat} (positive : 0 < base) (n : Nat) (digits : Text) :
    n ≤ extended base n digits := by
  induction digits generalizing n with
  | nil => exact Nat.le_refl n
  | cons c digits ih =>
    have shifted : n ≤ n * base := Nat.le_mul_of_pos_right n positive
    exact (Nat.le_add_right_of_le shifted).trans (ih _)

/-- The digits behind a number count by their own places and move it as many places on. -/
theorem extended_digits {base : Nat} {ds : List Nat} {digits : Text}
    (read : List.Forall₂ (fun d c => digit? base c = some d) ds digits) (n : Nat) :
    extended base n digits = n * base ^ ds.length + Nat.ofDigits base ds.reverse := by
  induction read generalizing n with
  | nil => simp [extended]
  | @cons d c ds digits first _ ih =>
    rw [extended_cons first, ih, List.reverse_cons, Nat.ofDigits_append, Nat.ofDigits_singleton,
      List.length_reverse, List.length_cons, pow_succ]
    ring

theorem value_digits {ds : List Nat} {digits : Text} (spelled : List.Forall₂ HexDigit ds digits) :
    value 16 digits = Nat.ofDigits 16 ds.reverse := by
  have read := spelled.imp fun d c => (digit_eq_some_iff c d).mpr
  rw [value_eq_extended, extended_digits read, Nat.zero_mul, Nat.zero_add]

theorem number_eq_some_iff (digits : Text) (n : Nat) :
    number? 16 digits = some n ↔
      ∃ ds, ds ≠ [] ∧ List.Forall₂ HexDigit ds digits ∧ Nat.ofDigits 16 ds.reverse = n := by
  constructor
  · intro read
    unfold number? at read
    split at read
    · rename_i digital
      rw [Bool.and_eq_true, all_digits_iff] at digital
      obtain ⟨nonempty, ds, spelled⟩ := digital
      refine ⟨ds, ?_, spelled, ?_⟩
      · rintro rfl
        cases spelled
        cases nonempty
      · rw [← value_digits spelled]
        exact Option.some.inj read
    · cases read
  · rintro ⟨ds, nonempty, spelled, rfl⟩
    have digital : (!digits.isEmpty && digits.all (isDigit 16)) = true := by
      rw [Bool.and_eq_true, all_digits_iff]
      refine ⟨?_, ds, spelled⟩
      cases spelled with
      | nil => exact absurd rfl nonempty
      | cons => rfl
    rw [number?, if_pos digital, value_digits spelled]

end SmaliReport.Text
