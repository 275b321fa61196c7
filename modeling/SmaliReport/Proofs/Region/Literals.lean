import SmaliReport.Proofs.Region.Written
import SmaliReport.Proofs.Text.Trimming

/-!
Which texts are literals. The written form and the places of the digits say which number a text
states. The reader takes the exact number and refuses it beyond the range, which is the same as
giving up at the first digit that leaves the range.
-/

namespace SmaliReport.Region

open Text (HexDigit Padded extended)

/-- The text is `0x` and at least one digit, with blanks at either end, and the digits in their
places are the number. -/
def States (n : Nat) (t : Text) : Prop :=
  ∃ ds digits, ds ≠ [] ∧ List.Forall₂ HexDigit ds digits ∧ Nat.ofDigits 16 ds.reverse = n ∧
    Padded ("0x".toList ++ digits) t

theorem States.digits {n : Nat} {t : Text} (states : States n t) :
    ∃ digits, "0x".toList.isPrefixOf? t.trim = some digits ∧ Text.number? 16 digits = some n := by
  obtain ⟨ds, digits, nonempty, spelled, value, padded⟩ := states
  have number := (Text.number_eq_some_iff digits n).mpr ⟨ds, nonempty, spelled, value⟩
  have hex := List.all_eq_true.mp ((Text.all_digits_iff digits).mpr ⟨ds, spelled⟩)
  have given : digits ≠ [] := by
    rintro rfl
    cases spelled
    exact nonempty rfl
  have core := Text.trim_padded _ t padded (solid_digits digits given hex)
  exact ⟨digits, List.isPrefixOf?_eq_some_iff_append_eq.mpr core.symm, number⟩

theorem states_of_digits {n : Nat} {t digits : Text}
    (front : "0x".toList.isPrefixOf? t.trim = some digits)
    (number : Text.number? 16 digits = some n) : States n t := by
  obtain ⟨ds, nonempty, spelled, value⟩ := (Text.number_eq_some_iff digits n).mp number
  have core : "0x".toList ++ digits = t.trim := List.isPrefixOf?_eq_some_iff_append_eq.mp front
  exact ⟨ds, digits, nonempty, spelled, value, core ▸ Text.padded_trim t⟩

theorem hexLiteral_eq_some_iff (t : Text) (i : Int32) :
    hexLiteral? t = some i ↔ ∃ n, States n t ∧ n ≤ 0x7FFFFFFF ∧ Int32.ofNat n = i := by
  constructor
  · intro read
    simp only [hexLiteral?, Option.bind_eq_bind, Option.bind_eq_some_iff] at read
    obtain ⟨digits, front, n, number, bounded⟩ := read
    split at bounded
    · rename_i fits
      exact ⟨n, states_of_digits front number, fits, Option.some.inj bounded⟩
    · cases bounded
  · rintro ⟨n, states, fits, rfl⟩
    obtain ⟨digits, front, number⟩ := states.digits
    rw [hexLiteral?, front, Option.bind_eq_bind, Option.bind_some, number, Option.bind_eq_bind,
      Option.bind_some, if_pos fits]

theorem hexLiteral_eq_none_iff (t : Text) :
    hexLiteral? t = none ↔ ∀ n, States n t → 0x7FFFFFFF < n := by
  rw [Option.eq_none_iff_forall_ne_some]
  constructor
  · intro refused n states
    apply Nat.lt_of_not_le
    intro fits
    exact refused _ ((hexLiteral_eq_some_iff t _).mpr ⟨n, states, fits, rfl⟩)
  · intro large i read
    obtain ⟨n, states, fits, _⟩ := (hexLiteral_eq_some_iff t i).mp read
    exact absurd (large n states) (Nat.not_lt.mpr fits)

example : ["1f", "0X1f", "-0x1", "0x", "0x\uFF11", "0x80000000"].map (hexLiteral? ·.toList) =
    List.replicate 6 none := by decide

theorem integer_stated {key : Text} {region : Region} {n : Nat} (default : Int32)
    (states : States n (single key region)) (fits : n ≤ 0x7FFFFFFF) :
    (integer key default region).toInt = n := by
  have read := (hexLiteral_eq_some_iff _ _).mpr ⟨n, states, fits, rfl⟩
  rw [integer, read, Option.getD_some]
  exact Int32.toInt_ofNat_of_lt (by omega)

theorem integer_unstated {key : Text} {region : Region} (default : Int32)
    (large : ∀ n, States n (single key region) → 0x7FFFFFFF < n) :
    integer key default region = default := by
  rw [integer, (hexLiteral_eq_none_iff _).mpr large, Option.getD_none]

/-- The number with one more digit behind it, unless that leaves the range. -/
def pushDigit? (n : Nat) (c : Char) : Option Nat := do
  let d ← Text.digit? 16 c
  if n * 16 + d ≤ 0x7FFFFFFF then some (n * 16 + d) else none

/-- The number of at least one digit, if none of them leaves the range. -/
def accumulated? (digits : Text) : Option Int32 :=
  if digits.isEmpty then none else (digits.foldlM pushDigit? 0).map Int32.ofNat

/-- A sum that has left the range never comes back, so the last one says all. -/
theorem foldlM_pushDigit (digits : Text) (n : Nat) (fits : n ≤ 0x7FFFFFFF) :
    digits.foldlM pushDigit? n =
      if digits.all (Text.isDigit 16) ∧ extended 16 n digits ≤ 0x7FFFFFFF then
        some (extended 16 n digits)
      else none := by
  induction digits generalizing n with
  | nil => simp [extended, fits]
  | cons c digits ih =>
    rw [List.foldlM_cons, pushDigit?, List.all_cons, Text.isDigit]
    cases read : Text.digit? 16 c with
    | none => simp
    | some d =>
      rw [Text.extended_cons read, Option.isSome_some, Bool.true_and, Option.bind_eq_bind,
        Option.bind_some]
      by_cases next : n * 16 + d ≤ 0x7FFFFFFF
      · rw [if_pos next, Option.bind_some, ih _ next]
      · have grown := Text.le_extended (by decide : 0 < 16) (n * 16 + d) digits
        rw [if_neg next, Option.bind_none, if_neg (by omega)]

theorem hexLiteral_eq_accumulated (t : Text) :
    hexLiteral? t = ("0x".toList.isPrefixOf? t.trim).bind accumulated? := by
  rw [hexLiteral?, Option.bind_eq_bind]
  congr 1
  funext digits
  rw [accumulated?, foldlM_pushDigit digits 0 (by decide), Text.number?, Text.value_eq_extended]
  cases digits.isEmpty with
  | true => rfl
  | false => cases digits.all (Text.isDigit 16) <;> simp

/-- A text is read as a number just if it states that number and the number is at most `2 ^ 31 - 1`;
whether the range is left can as well be checked at each digit. A field has the number that its
value is read as, and its default for every other value. -/
theorem hexLiteral_exact (t : Text) :
    (∀ n : Int, (hexLiteral? t).map Int32.toInt = some n ↔
      n ≤ 2 ^ 31 - 1 ∧ ∃ m : Nat, States m t ∧ m = n) ∧
    (hexLiteral? t = none ↔ ∀ m, States m t → 2 ^ 31 - 1 < m) ∧
    hexLiteral? t = ("0x".toList.isPrefixOf? t.trim).bind accumulated? ∧
    ∀ key default region, single key region = t →
      (∀ m, States m t → m ≤ 2 ^ 31 - 1 → (integer key default region).toInt = m) ∧
      ((∀ m, States m t → 2 ^ 31 - 1 < m) → integer key default region = default) := by
  refine ⟨fun n => ?_, hexLiteral_eq_none_iff t, hexLiteral_eq_accumulated t, ?_⟩
  · simp only [Option.map_eq_some_iff, hexLiteral_eq_some_iff]
    constructor
    · rintro ⟨_, ⟨m, states, fits, rfl⟩, rfl⟩
      rw [Int32.toInt_ofNat_of_lt (by omega)]
      exact ⟨by omega, m, states, rfl⟩
    · rintro ⟨fits, m, states, rfl⟩
      exact ⟨Int32.ofNat m, ⟨m, states, by omega, rfl⟩, Int32.toInt_ofNat_of_lt (by omega)⟩
  · rintro key default region rfl
    constructor
    · exact fun m states fits => integer_stated default states fits
    · exact integer_unstated default

/-- The largest number with a zero before it, and the number behind it. -/
theorem hexLiteral_exact_limit :
    States 0x7FFFFFFF "0x07fFFfFFf".toList ∧
      (integer "k".toList 1 ["  k = 0x07fFFfFFf,".toList]).toInt = 0x7FFFFFFF ∧
      integer "k".toList 1 ["  k = 0x80000000,".toList] = 1 := by
  have states : States 0x7FFFFFFF "0x07fFFfFFf".toList :=
    ⟨[0, 7, 15, 15, 15, 15, 15, 15, 15], "07fFFfFFf".toList, by decide, by decide, by decide,
      [], [], nofun, nofun, rfl⟩
  have largest := (hexLiteral_exact "0x07fFFfFFf".toList).2.2.2 "k".toList 1
    ["  k = 0x07fFFfFFf,".toList] (by decide)
  have large := (hexLiteral_exact "0x80000000".toList).2.1.mp (by decide)
  have next := (hexLiteral_exact "0x80000000".toList).2.2.2 "k".toList 1
    ["  k = 0x80000000,".toList] (by decide)
  exact ⟨states, largest.1 _ states (by decide), next.2 large⟩

end SmaliReport.Region
