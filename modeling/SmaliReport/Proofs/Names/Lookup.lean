import Mathlib.Data.List.Basic
import SmaliReport.Names.StringTable

/-!
Lookups in a string table. The records lie over the entries one behind the other, each over as many
as its range says. A table is made unless they need more entries than there are texts, and then
each index of a text has an entry, also where a record never looks at that text.
-/

namespace SmaliReport.StringTable

open Payload (Record StringTableTypes)

/-- How many entries the records cover together. -/
def covered (records : List Record) : Nat := records.foldr (coverage · + ·) 0

/-- Record `k` is over entry `i`, which those before it leave free. -/
def Covers (records : List Record) (k i : Nat) : Prop :=
  covered (records.take k) ≤ i ∧ i < covered (records.take (k + 1))

instance (records : List Record) (k i : Nat) : Decidable (Covers records k i) :=
  inferInstanceAs (Decidable (_ ∧ _))

/-- The record of each entry that has one. -/
def spread (records : List Record) : List Record :=
  records.flatMap fun r => .replicate (coverage r) r

/-- The records with a record over each single entry in the place of `r`. -/
def split (before : List Record) (r : Record) (after : List Record) : List Record :=
  before ++ .replicate (coverage r) { r with range := some 1 } ++ after

@[simp] theorem covered_nil : covered [] = 0 := rfl

@[simp] theorem covered_cons (r : Record) (records : List Record) :
    covered (r :: records) = coverage r + covered records := rfl

theorem covered_append (front back : List Record) :
    covered (front ++ back) = covered front + covered back := by
  induction front with
  | nil => simp
  | cons r front ih => simp only [List.cons_append, covered_cons, ih, Nat.add_assoc]

theorem covered_split (before after : List Record) (r : Record) :
    covered (split before r after) = covered (before ++ r :: after) := by
  have one : coverage { r with range := some 1 } = 1 := rfl
  have ones (n : Nat) : covered (.replicate n { r with range := some 1 }) = n := by
    induction n with
    | zero => rfl
    | succ n ih =>
      rw [List.replicate_succ, covered_cons, one, ih]
      omega
  simp only [split, covered_append, covered_cons, ones, Nat.add_assoc]

theorem covered_take_le (records : List Record) {k j : Nat} (earlier : k ≤ j) :
    covered (records.take k) ≤ covered (records.take j) := by
  obtain ⟨more, rest⟩ := List.take_prefix_take_left (l := records) earlier
  rw [← rest, covered_append]
  omega

theorem length_spread (records : List Record) : (spread records).length = covered records := by
  induction records with
  | nil => rfl
  | cons r records ih =>
    simp only [spread, List.flatMap_cons, List.length_append, List.length_replicate] at ih ⊢
    rw [ih, covered_cons]

theorem Covers.unique {records : List Record} {k j i : Nat} (first : Covers records k i)
    (second : Covers records j i) : j = k := by
  obtain ⟨first_after, first_before⟩ := first
  obtain ⟨second_after, second_before⟩ := second
  rcases Nat.lt_trichotomy j k with lower | same | higher
  · have ordered : covered (records.take (j + 1)) ≤ covered (records.take k) :=
      covered_take_le records lower
    omega
  · exact same
  · have ordered : covered (records.take (k + 1)) ≤ covered (records.take j) :=
      covered_take_le records higher
    omega

theorem Covers.inside {records : List Record} {k i : Nat} (covers : Covers records k i) :
    i < covered records := by
  have whole := covered_take_le records (Nat.le_max_right records.length (k + 1))
  rw [List.take_of_length_le (Nat.le_max_left _ _)] at whole
  exact Nat.lt_of_lt_of_le covers.2 whole

theorem covers_cons (r : Record) (records : List Record) (k i : Nat) :
    Covers (r :: records) (k + 1) (coverage r + i) ↔ Covers records k i := by
  simp only [Covers, List.take_succ_cons, covered_cons]
  omega

theorem spread_covers {records : List Record} {k i : Nat} {record : Record}
    (there : records[k]? = some record) (covers : Covers records k i) :
    (spread records)[i]? = some record := by
  induction records generalizing k i with
  | nil => cases there
  | cons r records ih =>
    simp only [spread, List.flatMap_cons]
    cases k with
    | zero =>
      have first : i < coverage r := by simpa using covers.2
      cases there
      simp [List.getElem?_append_left, first]
    | succ k =>
      have later : coverage r ≤ i := by
        have := covers.1
        simp only [List.take_succ_cons, covered_cons] at this
        omega
      obtain ⟨i, rfl⟩ := Nat.exists_eq_add_of_le later
      rw [List.getElem?_append_right (by simp)]
      simpa [spread] using ih there ((covers_cons r records k i).mp covers)

/-- The entries with a record are those before `covered`. -/
theorem exists_covers {records : List Record} {i : Nat} (inside : i < covered records) :
    ∃ k record, records[k]? = some record ∧ Covers records k i := by
  induction records generalizing i with
  | nil => simp at inside
  | cons r records ih =>
    by_cases first : i < coverage r
    · exact ⟨0, r, rfl, by simp, by simpa using first⟩
    · obtain ⟨i, rfl⟩ := Nat.exists_eq_add_of_le (Nat.le_of_not_lt first)
      rw [covered_cons] at inside
      obtain ⟨k, record, there, covers⟩ := ih (by omega : i < covered records)
      exact ⟨k + 1, record, there, (covers_cons r records k i).mpr covers⟩

theorem of_eq (types : StringTableTypes) (texts : List Text) :
    of types texts =
      if texts.length < covered types.records then
        .error (.stringTableRange (covered types.records) texts.length)
      else .ok ⟨texts, spread types.records, types.localNames⟩ :=
  rfl

theorem index?_eq_some_iff {index : Int32} {i : Nat} : index? index = some i ↔ index.toInt = i := by
  unfold index?
  split
  · rw [Option.some.injEq]
    omega
  · constructor
    · intro same
      cases same
    · intro same
      omega

section Entries

variable (table : StringTable) (index : Int32)

theorem string_outside (short : table.records.length ≤ table.texts.length)
    (outside : ¬(0 ≤ index.toInt ∧ index.toInt < table.texts.length)) :
    table.string index = .error (.nameIndex index) := by
  unfold string
  cases position : index? index with
  | none => rfl
  | some i =>
    have value := index?_eq_some_iff.mp position
    have no_text : table.texts[i]? = none := List.getElem?_eq_none (by omega)
    have no_record : table.records[i]? = none := List.getElem?_eq_none (by omega)
    simp only [no_text, no_record]
    rfl

theorem string_recorded {i : Nat} {text : Text} {record : Record} (value : index.toInt = i)
    (stored : table.texts[i]? = some text) (own : table.records[i]? = some record) :
    table.string index = .ok (transform record ((source? record).getD text)) := by
  simp only [string, index?_eq_some_iff.mpr value, stored, own, Option.bind_eq_bind,
    Option.bind_some]
  cases source? record <;> rfl

theorem string_unrecorded {i : Nat} {text : Text} (value : index.toInt = i)
    (stored : table.texts[i]? = some text) (unrecorded : table.records[i]? = none) :
    table.string index = .ok text := by
  simp only [string, index?_eq_some_iff.mpr value, stored, unrecorded]
  rfl

end Entries

/-- What lookups in a table of these records and texts give. -/
structure Answers (records : List Record) (texts : List Text) (table : StringTable) : Prop where
  ok_iff : ∀ index : Int32, (∃ t, table.string index = .ok t) ↔
    0 ≤ index.toInt ∧ index.toInt < texts.length
  error : ∀ index : Int32, ¬(0 ≤ index.toInt ∧ index.toInt < texts.length) →
    table.string index = .error (.nameIndex index)
  recorded : ∀ (index : Int32) (i k : Nat) (text : Text) (record : Record), index.toInt = i →
    texts[i]? = some text → records[k]? = some record → Covers records k i →
      table.string index = .ok (transform record ((source? record).getD text)) ∧
        ∀ j, Covers records j i → j = k
  plain : ∀ (index : Int32) (i : Nat) (text : Text), index.toInt = i → texts[i]? = some text →
    (∀ k, ¬Covers records k i) → table.string index = .ok text

theorem answers_of {types : StringTableTypes} {texts : List Text} {table : StringTable}
    (made : of types texts = .ok table) : Answers types.records texts table := by
  rw [of_eq] at made
  split at made
  · cases made
  rename_i fits
  obtain rfl : ⟨texts, spread types.records, types.localNames⟩ = table := Except.ok.inj made
  have short : (spread types.records).length ≤ texts.length := by
    rw [length_spread]
    omega
  have error := fun index =>
    string_outside ⟨texts, spread types.records, types.localNames⟩ index short
  have recorded (index : Int32) (i k : Nat) (text : Text) (record : Record)
      (value : index.toInt = i) (stored : texts[i]? = some text)
      (there : types.records[k]? = some record) (covers : Covers types.records k i) :=
    string_recorded ⟨texts, spread types.records, types.localNames⟩ index value stored
      (spread_covers there covers)
  have plain (index : Int32) (i : Nat) (text : Text) (value : index.toInt = i)
      (stored : texts[i]? = some text) (free : ∀ k, ¬Covers types.records k i) := by
    have beyond : (spread types.records).length ≤ i := by
      rw [length_spread]
      by_contra inside
      obtain ⟨k, _, _, covers⟩ := exists_covers (Nat.lt_of_not_le inside)
      exact free k covers
    exact string_unrecorded ⟨texts, spread types.records, types.localNames⟩ index value stored
      (List.getElem?_eq_none beyond)
  refine ⟨fun index => ⟨?_, ?_⟩, error, ?_, plain⟩
  · rintro ⟨t, found⟩
    by_contra outside
    rw [error index outside] at found
    cases found
  · rintro ⟨low, high⟩
    obtain ⟨i, value⟩ := Int.eq_ofNat_of_zero_le low
    have stored : texts[i]? = some texts[i] := List.getElem?_eq_getElem (by omega)
    by_cases inside : i < covered types.records
    · obtain ⟨k, record, there, covers⟩ := exists_covers inside
      exact ⟨_, recorded index i k _ record value stored there covers⟩
    · exact ⟨_, plain index i _ value stored fun k covers => inside covers.inside⟩
  · intro index i k text record value stored there covers
    exact ⟨recorded index i k text record value stored there covers, fun j => covers.unique⟩

/-- The record without how many entries it covers. -/
def bare (r : Record) : Record := { r with range := none }

/-- What a record makes of an entry does not depend on how many it covers. -/
theorem string_bare (table : StringTable) (index : Int32) :
    string { table with records := table.records.map bare } index = table.string index := by
  unfold string
  cases index? index with
  | none => rfl
  | some i =>
    simp only [List.getElem?_map]
    cases table.records[i]? <;> rfl

theorem className_bare (table : StringTable) (index : Int32) :
    className { table with records := table.records.map bare } index = table.className index := by
  simp only [className, string_bare]

/-- One record over some entries does the same as one record over each of them. -/
theorem spread_split (before after : List Record) (r : Record) :
    (spread (split before r after)).map bare = (spread (before ++ r :: after)).map bare := by
  have one : coverage { r with range := some 1 } = 1 := rfl
  simp only [spread, split, List.flatMap_append, List.flatMap_cons, List.map_append,
    List.flatMap_replicate, List.append_assoc, one, List.replicate_one,
    List.flatten_replicate_singleton, List.map_replicate]
  rfl

/-- A string table is made unless its records cover more entries than it has texts. An index has an
entry just if it is that of a text: what the one record over it makes of the text, or the text as it
is. So a record over several entries can be replaced by one record over each of them. -/
theorem lookup_exact (types : StringTableTypes) (texts : List Text) :
    (∀ e, of types texts = .error e ↔ texts.length < covered types.records ∧
      e = .stringTableRange (covered types.records) texts.length) ∧
    (∀ table, of types texts = .ok table → Answers types.records texts table) ∧
    ∀ before r after, types.records = before ++ r :: after →
      (of { types with records := split before r after } texts).map string =
          (of types texts).map string ∧
        (of { types with records := split before r after } texts).map className =
          (of types texts).map className := by
  refine ⟨fun e => ?_, fun table => answers_of, ?_⟩
  · rw [of_eq]
    split
    · rename_i exceeded
      simp [exceeded, eq_comm]
    · rename_i fits
      simp [fits]
  · intro before r after records
    have same := spread_split before after r
    rw [of_eq, of_eq, covered_split, ← records]
    split
    · exact ⟨rfl, rfl⟩
    · rw [← records] at same
      constructor
      · apply congrArg Except.ok
        funext index
        rw [← string_bare, same, string_bare ⟨texts, spread types.records, types.localNames⟩]
      · apply congrArg Except.ok
        funext index
        rw [← className_bare, same, className_bare ⟨texts, spread types.records, types.localNames⟩]

/-- A record over two entries, one over none, and a literal. -/
def ranged : StringTableTypes where
  records := [{ range := some 2, operation := some 1 }, { range := some (-1) },
    { string := some "literal".toList }]
  localNames := [1]

theorem lookup_exact_ranged :
    ∃ table, of ranged ["a$b".toList, "c$d".toList, [], "e$f".toList] = .ok table ∧
      table.string 1 = .ok "c.d".toList ∧ table.string 2 = .ok "literal".toList ∧
      table.string 3 = .ok "e$f".toList ∧ table.string 4 = .error (.nameIndex 4) ∧
      of ranged ["a$b".toList, "c$d".toList] = .error (.stringTableRange 3 2) := by
  refine ⟨_, rfl, ?_⟩
  have answers := (lookup_exact ranged ["a$b".toList, "c$d".toList, [], "e$f".toList]).2.1 _ rfl
  refine ⟨?_, ?_, ?_, ?_, ?_⟩
  · exact (answers.recorded 1 1 0 _ _ (by decide) rfl rfl (by decide)).1
  · exact (answers.recorded 2 2 2 _ _ (by decide) rfl rfl (by decide)).1
  · exact answers.plain 3 3 _ (by decide) rfl fun k covers => absurd covers.inside (by decide)
  · exact answers.error 4 (by decide)
  · exact ((lookup_exact ranged ["a$b".toList, "c$d".toList]).1 _).mpr (by decide)

end SmaliReport.StringTable
