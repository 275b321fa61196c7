import Mathlib.Logic.Function.Iterate
import SmaliReport.Proofs.Payload.Packing

/-!
The bytes of texts that hold groups, whatever characters the texts are made of. Each bit of the
bytes is a bit of one group. A walk that makes byte after byte and looks one group ahead ends before
it would leave the groups.
-/

namespace SmaliReport.Payload

/-- The characters that hold groups: all but a leading U+0001. -/
def stored : List Text → Text
  | ('\x01' :: first) :: rest => first ++ rest.flatten
  | texts => texts.flatten

/-- The groups in a row. -/
def groupsOf (t : Text) : Array UInt8 := ((lowBytes t).map group).toArray

/-- Where a byte starts: in which group, and behind how many of its bits. -/
structure Cursor where
  group : Nat := 0
  bit : Nat := 0

namespace Cursor

/-- A byte takes what is left of one group and the first bits of the next, all seven of them from
bit 6 on. -/
def next (c : Cursor) : Cursor :=
  if c.bit = 6 then ⟨c.group + 2, 0⟩ else ⟨c.group + 1, c.bit + 1⟩

/-- The byte at the cursor as the sum of its two parts; none if one of the groups is missing. -/
def byte? (groups : Array UInt8) (c : Cursor) : Option UInt8 := do
  let low ← groups[c.group]?
  let high ← groups[c.group + 1]?
  some ((low.toNat >>> c.bit) + (high.toNat &&& (1 <<< (c.bit + 1) - 1)) <<< (7 - c.bit)).toUInt8

/-- The next `count` bytes; none if a group is missing to any of them. -/
def bytes? (groups : Array UInt8) : Nat → Cursor → Option (List UInt8)
  | 0, _ => some []
  | count + 1, c => do
    let b ← c.byte? groups
    let rest ← bytes? groups count c.next
    some (b :: rest)

/-- The cursor behind `k` bytes. -/
def behind (k : Nat) : Cursor := ⟨8 * k / 7, 8 * k % 7⟩

theorem next_behind (k : Nat) : (behind k).next = behind (k + 1) := by
  change (if 8 * k % 7 = 6 then (⟨8 * k / 7 + 2, 0⟩ : Cursor)
    else ⟨8 * k / 7 + 1, 8 * k % 7 + 1⟩) = ⟨8 * (k + 1) / 7, 8 * (k + 1) % 7⟩
  split
  · congr 1 <;> omega
  · congr 1 <;> omega

theorem iterate_next (k : Nat) : next^[k] {} = behind k := by
  induction k with
  | zero => rfl
  | succ k ih => rw [Function.iterate_succ_apply', ih, next_behind]

/-- As the bytes are counted, the last of them still ends in a group. -/
theorem behind_inside {k size : Nat} (inside : k < 7 * size / 8) : (behind k).group + 1 < size := by
  change 8 * k / 7 + 1 < size
  omega

/-- What is left of a group lies below the bits of the next one, and these fill the byte. -/
theorem low_add_high (low high bit : Nat) (small : low < 128) (start : bit < 7) :
    (low >>> bit + (high &&& (1 <<< (bit + 1) - 1)) <<< (7 - bit)) % 256 =
      (low >>> bit ||| high <<< (7 - bit)) % 256 := by
  have below : low >>> bit < 2 ^ (7 - bit) := by
    rw [Nat.shiftRight_eq_div_pow]
    apply Nat.div_lt_of_lt_mul
    rwa [← Nat.pow_add, show bit + (7 - bit) = 7 by omega]
  have byte : (256 : Nat) = 2 ^ 8 := rfl
  have front : (high &&& (1 <<< (bit + 1) - 1)) <<< (7 - bit) = high <<< (7 - bit) % 256 := by
    rw [Nat.one_shiftLeft, Nat.and_two_pow_sub_one_eq_mod, Nat.shiftLeft_eq, Nat.shiftLeft_eq,
      ← Nat.mul_mod_mul_right, ← Nat.pow_add, show bit + 1 + (7 - bit) = 8 by omega, byte]
  calc (low >>> bit + (high &&& (1 <<< (bit + 1) - 1)) <<< (7 - bit)) % 256
      = ((high &&& (1 <<< (bit + 1) - 1)) <<< (7 - bit) ||| low >>> bit) % 256 := by
        rw [Nat.add_comm, Nat.shiftLeft_add_eq_or_of_lt below]
    _ = (high <<< (7 - bit) ||| low >>> bit) % 256 := by
        rw [front, byte, Nat.or_mod_two_pow, Nat.mod_mod, ← Nat.or_mod_two_pow]
    _ = (low >>> bit ||| high <<< (7 - bit)) % 256 := by rw [Nat.or_comm]

section Walk

variable (groups : Array UInt8) (small : ∀ j (h : j < groups.size), groups[j].toNat < 128)

include small

theorem byte_behind (k : Nat) (inside : k < 7 * groups.size / 8) :
    (behind k).byte? groups = packedByte? groups k := by
  have both : 8 * k / 7 + 1 < groups.size := behind_inside inside
  have low : groups[8 * k / 7]? = some groups[8 * k / 7] := getElem?_pos groups _ (by omega)
  have high : groups[8 * k / 7 + 1]? = some groups[8 * k / 7 + 1] := getElem?_pos groups _ both
  simp only [byte?, packedByte?, behind, low, high, Option.bind_eq_bind, Option.bind_some,
    Option.some.injEq]
  apply UInt8.toNat_inj.mp
  rw [Nat.toUInt8_eq, Nat.toUInt8_eq, UInt8.toNat_ofNat', UInt8.toNat_ofNat']
  exact low_add_high _ _ _ (small _ _) (Nat.mod_lt _ (by decide))

/-- By induction on the bytes that are left; the cursor tells how many are made. -/
theorem bytes_behind (count k : Nat) (inside : k + count ≤ 7 * groups.size / 8) :
    bytes? groups count (behind k) =
      some ((List.range' k count).filterMap (packedByte? groups)) := by
  induction count generalizing k with
  | zero => rfl
  | succ count ih =>
    obtain ⟨b, made, _⟩ := packedByte_bits groups small k (by omega)
    have first : (behind k).byte? groups = some b := by
      rw [byte_behind groups small k (by omega), made]
    rw [bytes?, first, next_behind, ih (k + 1) (by omega), List.range'_succ, List.filterMap_cons,
      made]
    rfl

theorem bytes_repack : bytes? groups (7 * groups.size / 8) {} = some (repack groups) := by
  have walk := bytes_behind groups small (7 * groups.size / 8) 0 (by omega)
  rwa [← List.range_eq_range'] at walk

end Walk

end Cursor

theorem bytesOf_stored (texts : List Text) (grouped : texts.head?.bind List.head? ≠ some '\x00') :
    bytesOf texts = repack (groupsOf (stored texts)) := by
  change bytesOf texts = unpackGroups (stored texts)
  cases texts with
  | nil => rfl
  | cons first rest =>
    cases first with
    | nil => rfl
    | cons c first =>
      have zero : c ≠ '\x00' := by simpa using grouped
      by_cases one : c = '\x01'
      · simp [one, bytesOf, stored]
      · simp [zero, one, bytesOf, stored]

theorem size_groupsOf (t : Text) : (groupsOf t).size = t.length := by
  simp [groupsOf, lowBytes]

theorem getElem?_groupsOf (t : Text) (j : Nat) :
    (groupsOf t)[j]? = t[j]?.map fun c => group c.toNat.toUInt8 := by
  rw [groupsOf, lowBytes, List.getElem?_toArray, List.getElem?_map, List.getElem?_map,
    Option.map_map]
  rfl

theorem groupsOf_small (t : Text) (j : Nat) (inside : j < (groupsOf t).size) :
    (groupsOf t)[j].toNat < 128 := by
  have found := getElem?_pos (groupsOf t) j inside
  rw [getElem?_groupsOf] at found
  obtain ⟨c, _, held⟩ := Option.map_eq_some_iff.mp found
  rw [← held, toNat_stored]
  exact Nat.mod_lt _ (by decide)

/-- Texts that do not start with U+0000 hold a stream of bits, seven in each character, and the
bytes are the whole bytes of it. The walk that makes them reads a group and the next one for each
byte, and both are always there. -/
theorem bytesOf_stream (texts : List Text)
    (grouped : texts.head?.bind List.head? ≠ some '\x00') :
    (bytesOf texts).length = 7 * (stored texts).length / 8 ∧
    (∀ k < 8 * (7 * (stored texts).length / 8), ∃ c, (stored texts)[k / 7]? = some c ∧
      bitAt (bytesOf texts) k = (storedGroup c).testBit (k % 7)) ∧
    (∀ k < 7 * (stored texts).length / 8,
      (Cursor.next^[k] {}).group + 1 < (stored texts).length) ∧
    Cursor.bytes? (groupsOf (stored texts)) (7 * (stored texts).length / 8) {} =
      some (bytesOf texts) := by
  have small := groupsOf_small (stored texts)
  obtain ⟨length, bits⟩ := bits_repack (groupsOf (stored texts)) small
  have walk := Cursor.bytes_repack (groupsOf (stored texts)) small
  rw [size_groupsOf] at length bits walk
  rw [bytesOf_stored texts grouped]
  refine ⟨length, ?_, ?_, walk⟩
  · intro k inside
    have there : k / 7 < (stored texts).length := by omega
    have found := List.getElem?_eq_getElem there
    refine ⟨(stored texts)[k / 7], found, ?_⟩
    rw [bits k inside, Array.getD_eq_getD_getElem?, getElem?_groupsOf, found, Option.map_some,
      Option.getD_some, toNat_stored]
  · intro k inside
    rw [Cursor.iterate_next]
    exact Cursor.behind_inside inside

/-- Eight characters that no packing writes, behind a marker: the last group is only looked at
ahead. -/
def foreign : List Text :=
  [['\x01', 'é'], [], ['中', '\x00', '\x01', 'a'], ['\x7f', 'z', '\u0100']]

theorem bytesOf_stream_foreign :
    foreign.head?.bind List.head? ≠ some '\x00' ∧ (bytesOf foreign).length = 7 ∧
      bitAt (bytesOf foreign) 55 = true ∧ (Cursor.next^[6] {}).group + 1 < 8 := by
  have grouped : foreign.head?.bind List.head? ≠ some '\x00' := by decide
  obtain ⟨length, bits, walk, _⟩ := bytesOf_stream foreign grouped
  obtain ⟨c, last, bit⟩ := bits 55 (by decide)
  obtain rfl : '\u0100' = c := Option.some.inj last
  exact ⟨grouped, length, bit.trans (by decide), walk 6 (by decide)⟩

end SmaliReport.Payload
