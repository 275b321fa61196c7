import Mathlib.Data.List.Basic
import Mathlib.Data.Nat.Init
import SmaliReport.Payload.Packing

/-!
Bytes read back from the texts that carry them. Both ways of packing are said bit by bit: bit `k`
of the bytes in a row is bit `k % 7` of group `k / 7`, and so no byte border is ever looked at.
-/

namespace SmaliReport.Payload

/-- Bit `k` of the bytes in a row, least significant bits first. Behind the last byte all bits are
zero. -/
def bitAt (bytes : List UInt8) (k : Nat) : Bool := (bytes.getD (k / 8) 0).toNat.testBit (k % 8)

/-- The seven bits from bit `7 * j` on as a number. -/
def sevenBits (bytes : List UInt8) (j : Nat) : Nat :=
  Nat.ofBits fun i : Fin 7 => bitAt bytes (7 * j + i)

/-- As many groups of seven bits as hold all bits, each stored plus one modulo 128. -/
def packed (bytes : List UInt8) : Text :=
  (List.range ((8 * bytes.length + 6) / 7)).map fun j => Char.ofNat ((sevenBits bytes j + 1) % 128)

/-- The texts that bytes are written as. Without its marker a packed text must not start with what
would be taken for one. -/
inductive Layout (bytes : List UInt8) : Text → Prop where
  | plain {t : Text} : t.map (·.toNat % 256) = bytes.map (·.toNat) → Layout bytes ('\x00' :: t)
  | marked : Layout bytes ('\x01' :: packed bytes)
  | bare : (packed bytes).head? ≠ some '\x00' → (packed bytes).head? ≠ some '\x01' →
      Layout bytes (packed bytes)

theorem eq_of_testBit {a b : UInt8} (same : ∀ i < 8, a.toNat.testBit i = b.toNat.testBit i) :
    a = b := by
  apply UInt8.toNat_inj.mp
  apply Nat.eq_of_testBit_eq
  intro i
  by_cases inside : i < 8
  · exact same i inside
  · have beyond (c : UInt8) : c.toNat.testBit i = false :=
      Nat.testBit_lt_two_pow (Nat.lt_of_lt_of_le c.toNat_lt (Nat.pow_le_pow_right (by decide)
        (Nat.le_of_not_lt inside)))
    rw [beyond a, beyond b]

/-- Bytes are told apart by their bits. -/
theorem eq_of_bitAt {bytes others : List UInt8} (length : bytes.length = others.length)
    (same : ∀ k < 8 * others.length, bitAt bytes k = bitAt others k) : bytes = others := by
  apply List.ext_getElem length
  intro k inside inside'
  apply eq_of_testBit
  intro i small
  have bit := same (8 * k + i) (by omega)
  rw [bitAt, bitAt, show (8 * k + i) / 8 = k by omega, show (8 * k + i) % 8 = i by omega] at bit
  simpa [List.getD_eq_getElem?_getD, inside, inside'] using bit

/-- The byte that starts at a bit of one group has its first bits there and the others in the next
group. -/
theorem testBit_joined (low high bit i : Nat) (small : low < 128) (start : bit < 7)
    (inside : i < 8) :
    ((low >>> bit ||| high <<< (7 - bit)) % 256).testBit i =
      if bit + i < 7 then low.testBit (bit + i) else high.testBit (bit + i - 7) := by
  rw [show (256 : Nat) = 2 ^ 8 by rfl, Nat.testBit_mod_two_pow, Nat.testBit_or,
    Nat.testBit_shiftRight, Nat.testBit_shiftLeft]
  by_cases first : bit + i < 7
  · have early : ¬7 - bit ≤ i := by omega
    simp [first, inside, early]
  · have late : 7 - bit ≤ i := by omega
    have behind : low.testBit (bit + i) = false :=
      Nat.testBit_lt_two_pow (Nat.lt_of_lt_of_le small
        (Nat.pow_le_pow_right (n := 2) (by decide) (Nat.le_of_not_lt first)))
    rw [if_neg first, behind, show bit + i - 7 = i - (7 - bit) by omega]
    simp [inside, late]

section Repack

variable (groups : Array UInt8) (small : ∀ j (h : j < groups.size), groups[j].toNat < 128)

include small

/-- Each byte lies in two groups that are there, and has its bits from them. -/
theorem packedByte_bits (k : Nat) (inside : k < 7 * groups.size / 8) :
    ∃ b, packedByte? groups k = some b ∧ ∀ i < 8, b.toNat.testBit i =
      (groups.getD ((8 * k + i) / 7) 0).toNat.testBit ((8 * k + i) % 7) := by
  have low : 8 * k / 7 < groups.size := by omega
  have high : 8 * k / 7 + 1 < groups.size := by omega
  have found (j : Nat) (h : j < groups.size) : groups[j]? = some groups[j] :=
    getElem?_pos groups j h
  refine ⟨(groups[8 * k / 7].toNat >>> (8 * k % 7) |||
    groups[8 * k / 7 + 1].toNat <<< (7 - 8 * k % 7)).toUInt8, ?_, ?_⟩
  · rw [packedByte?, found _ low, found _ high]
    rfl
  · intro i bit
    have joined := testBit_joined groups[8 * k / 7].toNat groups[8 * k / 7 + 1].toNat (8 * k % 7) i
      (small _ low) (by omega) bit
    rw [Nat.toUInt8, UInt8.toNat_ofNat', show (2 ^ 8 : Nat) = 256 by rfl, joined]
    have value (j : Nat) (h : j < groups.size) : groups.getD j 0 = groups[j] := by
      simp [Array.getD, h]
    split
    · rw [show (8 * k + i) / 7 = 8 * k / 7 by omega, show (8 * k + i) % 7 = 8 * k % 7 + i by omega,
        value _ low]
    · rw [show (8 * k + i) / 7 = 8 * k / 7 + 1 by omega,
        show (8 * k + i) % 7 = 8 * k % 7 + i - 7 by omega, value _ high]

/-- The bytes have the bits of the groups in a row. -/
theorem bits_repack : (repack groups).length = 7 * groups.size / 8 ∧
    ∀ k < 8 * (7 * groups.size / 8),
      bitAt (repack groups) k = (groups.getD (k / 7) 0).toNat.testBit (k % 7) := by
  have whole : repack groups = (List.range (7 * groups.size / 8)).map
      fun k => (packedByte? groups k).getD 0 := by
    apply List.filterMap_eq_map_iff_forall_eq_some.mpr
    intro k member
    obtain ⟨b, found, _⟩ := packedByte_bits groups small k (List.mem_range.mp member)
    rw [found]
    rfl
  refine ⟨by simp [whole], ?_⟩
  intro k inside
  obtain ⟨b, found, bits⟩ := packedByte_bits groups small (k / 8) (by omega)
  have byte : (repack groups).getD (k / 8) 0 = b := by
    have range : k / 8 < 7 * groups.size / 8 := by omega
    simp [whole, List.getD_eq_getElem?_getD, range, found]
  rw [bitAt, byte, bits (k % 8) (by omega), show 8 * (k / 8) + k % 8 = k by omega]

end Repack

theorem sevenBits_lt (bytes : List UInt8) (j : Nat) : sevenBits bytes j < 128 :=
  Nat.ofBits_lt_two_pow _

/-- The group that a character holds: its low eight bits less one modulo 128. -/
def storedGroup (c : Char) : Nat := (c.toNat % 256 + 127) % 128

theorem toNat_stored (c : Char) : (group c.toNat.toUInt8).toNat = storedGroup c := by
  rw [group, UInt8.toNat_and, UInt8.toNat_add, Nat.toUInt8_eq, UInt8.toNat_ofNat']
  change ((c.toNat % 256 + 127) % 256) &&& (2 ^ 7 - 1) = (c.toNat % 256 + 127) % 128
  rw [Nat.and_two_pow_sub_one_eq_mod]
  omega

/-- A group is read as it was before it was stored. -/
theorem toNat_group (v : Nat) (small : v < 128) :
    (group (Char.ofNat ((v + 1) % 128)).toNat.toUInt8).toNat = v := by
  have valid : ((v + 1) % 128).isValidChar := .inl (by omega)
  have scalar : (Char.ofNat ((v + 1) % 128)).toNat = (v + 1) % 128 := by
    rw [Char.ofNat, dif_pos valid]
    rfl
  rw [toNat_stored, storedGroup, scalar]
  omega

theorem groups_packed (bytes : List UInt8) :
    ((lowBytes (packed bytes)).map group).map (·.toNat) =
      (List.range ((8 * bytes.length + 6) / 7)).map (sevenBits bytes) := by
  simp only [packed, lowBytes, List.map_map]
  apply List.map_congr_left
  intro j _
  exact toNat_group _ (sevenBits_lt bytes j)

/-- The groups hold all bits of the bytes, and not another whole byte. -/
theorem unpackGroups_packed (bytes : List UInt8) : unpackGroups (packed bytes) = bytes := by
  have spelled := groups_packed bytes
  rw [unpackGroups]
  generalize (lowBytes (packed bytes)).map group = groups at spelled
  have size : groups.length = (8 * bytes.length + 6) / 7 := by
    simpa using congrArg List.length spelled
  have each (j : Nat) (inside : j < groups.length) : groups[j].toNat = sevenBits bytes j := by
    have entry := congrArg (·[j]?) spelled
    simpa [inside, size ▸ inside] using entry
  obtain ⟨length, bits⟩ := bits_repack groups.toArray fun j inside => by
    rw [List.getElem_toArray, each j inside]
    exact sevenBits_lt bytes j
  rw [List.size_toArray, size] at length bits
  have whole : 7 * ((8 * bytes.length + 6) / 7) / 8 = bytes.length := by omega
  rw [whole] at length bits
  apply eq_of_bitAt length
  intro k inside
  have there : k / 7 < groups.length := by omega
  have found : groups.toArray.getD (k / 7) 0 = groups[k / 7] := by simp [Array.getD, there]
  rw [bits k inside, found, each _ there, sevenBits, Nat.testBit_ofBits_lt _ _ (by omega),
    Nat.div_add_mod]

theorem lowBytes_plain (t : Text) (bytes : List UInt8)
    (low : t.map (·.toNat % 256) = bytes.map (·.toNat)) : lowBytes t = bytes := by
  have injective : Function.Injective UInt8.toNat := fun _ _ => UInt8.toNat_inj.mp
  apply injective.list_map
  rw [← low, lowBytes, List.map_map]
  apply List.map_congr_left
  intro c _
  simp

/-- Only the first character says how texts are read, and their borders matter for nothing else. -/
theorem bytesOf_flatten (first : Text) (rest : List Text) (given : first ≠ []) :
    bytesOf (first :: rest) = bytesOf [first ++ rest.flatten] := by
  obtain ⟨c, first, rfl⟩ := List.exists_cons_of_ne_nil given
  by_cases zero : c = '\x00'
  · simp [zero, bytesOf]
  · by_cases one : c = '\x01'
    · simp [one, bytesOf]
    · simp [zero, one, bytesOf]

theorem bytesOf_bare (t : Text) (zero : t.head? ≠ some '\x00') (one : t.head? ≠ some '\x01') :
    bytesOf [t] = unpackGroups t := by
  cases t with
  | nil => rfl
  | cons c t =>
    have zero : c ≠ '\x00' := by simpa using zero
    have one : c ≠ '\x01' := by simpa using one
    simp [zero, one, bytesOf]

/-- Bytes are read back from each of their layouts, wherever the text is cut into texts. -/
theorem bytesOf_layout (bytes : List UInt8) (text first : Text) (rest : List Text)
    (layout : Layout bytes text) (given : first ≠ []) (cut : first ++ rest.flatten = text) :
    bytesOf (first :: rest) = bytes := by
  rw [bytesOf_flatten first rest given, cut]
  cases layout with
  | plain low => simpa [bytesOf] using lowBytes_plain _ bytes low
  | marked => simpa [bytesOf] using unpackGroups_packed bytes
  | bare zero one => rw [bytesOf_bare _ zero one, unpackGroups_packed]

/-- Eight bytes: behind seven of them a group starts at a byte's border again. -/
def overPeriod : List UInt8 := [0x0A, 0xFF, 0x00, 0x80, 0x34, 0x56, 0x78, 0x81]

theorem bytesOf_layout_bare :
    Layout overPeriod (packed overPeriod) ∧ bytesOf
      [['\x0b'], [], ['\x7f', '\x04', '\x01', '\x49', '\x47', '\x16'], ['\x3d', '\x02', '\x02']] =
        overPeriod := by
  have layout : Layout overPeriod (packed overPeriod) :=
    .bare (by decide +kernel) (by decide +kernel)
  exact ⟨layout, bytesOf_layout overPeriod _ _ _ layout (by decide) (by decide +kernel)⟩

end SmaliReport.Payload
