import Mathlib.Data.List.Forall2
import SmaliReport.Text.Utf8

/-! Encoded texts are read back. The reader takes the bytes of one scalar from between two
scalars to between two scalars again; the two lead bytes with narrower second bytes are the
cases of code points next to the surrogates, to overlong forms and to the upper end. -/

namespace SmaliReport.Text

open Utf8Reader

theorem toNat_small (n : Nat) (small : n < 256) : (UInt8.ofNat n).toNat = n := by
  simpa using small

/-- A byte that ends the sequence, or one that leaves it open. -/
theorem step_tail (read : List (Option Char)) (left low high code tail : Nat)
    (bounds : low < 256 ∧ high < 256)
    (within : tail < 64 ∧ low ≤ tail + 0x80 ∧ tail + 0x80 ≤ high) :
    step ⟨read, some ⟨left, UInt8.ofNat low, UInt8.ofNat high, code⟩⟩ (UInt8.ofNat (tail + 0x80)) =
      if left ≤ 1 then ⟨some (Char.ofNat (code * 64 + tail)) :: read, none⟩
      else ⟨read, some ⟨left - 1, UInt8.ofNat 0x80, UInt8.ofNat 0xBF, code * 64 + tail⟩⟩ := by
  have byte := toNat_small (tail + 0x80) (by omega)
  have inside : UInt8.ofNat low ≤ UInt8.ofNat (tail + 0x80) ∧
      UInt8.ofNat (tail + 0x80) ≤ UInt8.ofNat high := by
    rw [UInt8.le_iff_toNat_le, UInt8.le_iff_toNat_le, byte, toNat_small low bounds.1,
      toNat_small high bounds.2]
    exact within.2
  simp only [step]
  rw [if_pos inside, byte, Nat.add_sub_cancel]
  rfl

theorem lead_one (read : List (Option Char)) (n : Nat) (small : n < 0x80) :
    lead read (UInt8.ofNat n) = ⟨some (Char.ofNat n) :: read, none⟩ := by
  have byte := toNat_small n (by omega)
  simp only [lead]
  rw [if_pos (by rw [UInt8.lt_iff_toNat_lt, byte]; exact small), byte]

theorem lead_two (read : List (Option Char)) (n : Nat) (range : 2 ≤ n ∧ n < 32) :
    lead read (UInt8.ofNat (n + 0xC0)) =
      ⟨read, some ⟨1, UInt8.ofNat 0x80, UInt8.ofNat 0xBF, n⟩⟩ := by
  have byte := toNat_small (n + 0xC0) (by omega)
  simp only [lead, UInt8.lt_iff_toNat_lt, byte, UInt8.reduceToNat]
  rw [if_neg (by omega), if_neg (by omega), if_pos (by omega), Nat.add_sub_cancel]
  rfl

theorem lead_three (read : List (Option Char)) (n : Nat) (range : n < 16) :
    lead read (UInt8.ofNat (n + 0xE0)) =
      ⟨read, some ⟨2, UInt8.ofNat (if n = 0 then 0xA0 else 0x80),
        UInt8.ofNat (if n = 13 then 0x9F else 0xBF), n⟩⟩ := by
  have byte := toNat_small (n + 0xE0) (by omega)
  simp only [lead, UInt8.lt_iff_toNat_lt, ← UInt8.toNat_inj, byte, UInt8.reduceToNat]
  rw [if_neg (by omega), if_neg (by omega), if_neg (by omega)]
  by_cases first : n = 0
  · subst first
    rfl
  · rw [if_neg (by omega), if_neg first]
    by_cases last : n = 13
    · subst last
      rfl
    · rw [if_neg (by omega), if_pos (by omega), if_neg last, Nat.add_sub_cancel]
      rfl

theorem lead_four (read : List (Option Char)) (n : Nat) (range : n ≤ 4) :
    lead read (UInt8.ofNat (n + 0xF0)) =
      ⟨read, some ⟨3, UInt8.ofNat (if n = 0 then 0x90 else 0x80),
        UInt8.ofNat (if n = 4 then 0x8F else 0xBF), n⟩⟩ := by
  have byte := toNat_small (n + 0xF0) (by omega)
  simp only [lead, UInt8.lt_iff_toNat_lt, ← UInt8.toNat_inj, byte, UInt8.reduceToNat]
  rw [if_neg (by omega), if_neg (by omega), if_neg (by omega), if_neg (by omega), if_neg (by omega),
    if_neg (by omega)]
  by_cases first : n = 0
  · subst first
    rfl
  · rw [if_neg (by omega), if_neg first]
    by_cases last : n = 4
    · subst last
      rfl
    · rw [if_pos (by omega), if_neg last, Nat.add_sub_cancel]
      rfl

theorem foldl_scalar (read : List (Option Char)) (c : Char) :
    (String.utf8EncodeChar c).foldl step ⟨read, none⟩ = ⟨some c :: read, none⟩ := by
  have valid : c.val.toNat < 0xD800 ∨ 0xDFFF < c.val.toNat ∧ c.val.toNat < 0x110000 := c.valid
  have back : Char.ofNat c.val.toNat = c := Char.ofNat_toNat c
  rw [String.utf8EncodeChar]
  generalize c.val.toNat = v at valid back
  have start (b : UInt8) : step ⟨read, none⟩ b = lead read b := rfl
  split
  · rw [List.foldl_cons, start, lead_one read v (by omega), back, List.foldl_nil]
  split
  · rw [List.foldl_cons, start, lead_two read _ (by omega), List.foldl_cons,
      step_tail read 1 _ _ _ _ (by omega) (by omega), if_pos (Nat.le_refl 1), List.foldl_nil,
      show v / 64 % 32 * 64 + v % 64 = v by omega, back]
  split
  · rw [List.foldl_cons, start, lead_three read _ (by omega), List.foldl_cons,
      step_tail read 2 _ _ _ _ (by split <;> split <;> omega) (by split <;> split <;> omega),
      if_neg (by omega), List.foldl_cons,
      step_tail read 1 _ _ _ _ (by omega) (by omega), if_pos (Nat.le_refl 1), List.foldl_nil,
      show (v / 4096 % 16 * 64 + v / 64 % 64) * 64 + v % 64 = v by omega, back]
  · rw [List.foldl_cons, start, lead_four read _ (by omega), List.foldl_cons,
      step_tail read 3 _ _ _ _ (by split <;> split <;> omega) (by split <;> split <;> omega),
      if_neg (by omega), List.foldl_cons,
      step_tail read 2 _ _ _ _ (by omega) (by omega), if_neg (by omega), List.foldl_cons,
      step_tail read 1 _ _ _ _ (by omega) (by omega), if_pos (Nat.le_refl 1), List.foldl_nil,
      show ((v / 262144 % 8 * 64 + v / 4096 % 64) * 64 + v / 64 % 64) * 64 + v % 64 = v by omega,
      back]

theorem foldl_toUtf8 (read : List (Option Char)) (t : Text) :
    (toUtf8 t).foldl step ⟨read, none⟩ = ⟨(t.map some).reverse ++ read, none⟩ := by
  induction t generalizing read with
  | nil => rfl
  | cons c t ih =>
    rw [toUtf8, List.flatMap_cons, List.foldl_append, foldl_scalar]
    rw [show t.flatMap String.utf8EncodeChar = toUtf8 t from rfl, ih]
    simp

theorem scalars_toUtf8 (t : Text) : scalars (toUtf8 t) = t.map some := by
  rw [scalars, foldl_toUtf8 [] t]
  simp [finish]

theorem ofUtf8_toUtf8 (t : Text) : ofUtf8? (toUtf8 t) = some t := by
  rw [ofUtf8?, scalars_toUtf8]
  simp [List.filterMap_map]

/-- What a scalar or a broken stretch is read from. -/
def Stands : Option Char → List UInt8 → Prop
  | some c, bytes => bytes = String.utf8EncodeChar c
  | none, bytes => bytes ≠ []

/-- The number that a sequence comes to with these bytes behind it. -/
def codeOf (code : Nat) (tail : List UInt8) : Nat :=
  tail.foldl (fun code b => code * 64 + (b.toNat - 0x80)) code

/-- Whatever completes the sequence that `pending` has begun makes it a scalar's. -/
structure Unfinished.Begun (u : Unfinished) (pending : List UInt8) : Prop where
  left : 1 ≤ u.left
  narrow : 0x80 ≤ u.low ∧ u.high ≤ 0xBF
  begun : pending ≠ []
  completes : ∀ b tail, tail.length + 1 = u.left → u.low ≤ b ∧ b ≤ u.high →
    (∀ t ∈ tail, 0x80 ≤ t ∧ t ≤ 0xBF) →
      pending ++ b :: tail = String.utf8EncodeChar (Char.ofNat (codeOf u.code (b :: tail)))

/-- The reader's view of the bytes before it. -/
def Utf8Reader.Reads (r : Utf8Reader) (bytes : List UInt8) : Prop :=
  ∃ pieces pending, bytes = pieces.flatten ++ pending ∧ List.Forall₂ Stands r.read.reverse pieces ∧
    match r.open? with
    | none => pending = []
    | some u => u.Begun pending

theorem toNat_scalar (v : Nat) (valid : v < 0xD800 ∨ 0xDFFF < v ∧ v < 0x110000) :
    (Char.ofNat v).val.toNat = v := by
  rw [Char.ofNat, dif_pos valid]
  rfl

theorem encode_one (b : UInt8) (small : b < 0x80) :
    [b] = String.utf8EncodeChar (Char.ofNat b.toNat) := by
  rw [UInt8.lt_iff_toNat_lt] at small
  have small : b.toNat < 128 := small
  rw [String.utf8EncodeChar, toNat_scalar _ (by omega)]
  simp [show b.toNat ≤ 127 by omega]

theorem begun_two {b : UInt8} (range : 0xC2 ≤ b.toNat ∧ b.toNat < 0xE0) :
    Unfinished.Begun ⟨1, 0x80, 0xBF, b.toNat - 0xC0⟩ [b] where
  left := Nat.le_refl 1
  narrow := ⟨UInt8.le_refl 0x80, UInt8.le_refl 0xBF⟩
  begun := by simp
  completes t tail size within _ := by
    obtain rfl : tail = [] := List.eq_nil_of_length_eq_zero (by simpa using size)
    simp only [UInt8.le_iff_toNat_le, UInt8.reduceToNat] at within
    simp only [codeOf, List.foldl_cons, List.foldl_nil]
    rw [String.utf8EncodeChar, toNat_scalar _ (by omega), if_neg (by omega), if_pos (by omega)]
    simp only [List.singleton_append, List.cons.injEq, ← UInt8.toNat_inj, and_true]
    rw [toNat_small _ (by omega), toNat_small _ (by omega)]
    omega

theorem begun_three {b low high : UInt8} {n : Nat} (lead : b.toNat = n + 0xE0) (small : n < 16)
    (narrow : 0x80 ≤ low ∧ high ≤ 0xBF) (first : n = 0 → 0xA0 ≤ low)
    (surrogates : n = 13 → high ≤ 0x9F) : Unfinished.Begun ⟨2, low, high, n⟩ [b] where
  left := by simp
  narrow := narrow
  begun := by simp
  completes t tail size within each := by
    obtain ⟨s, rfl⟩ := List.length_eq_one_iff.mp (by simpa using size)
    have inner := each s List.mem_cons_self
    simp only [UInt8.le_iff_toNat_le, UInt8.reduceToNat] at narrow first surrogates within inner
    simp only [codeOf, List.foldl_cons, List.foldl_nil]
    rw [String.utf8EncodeChar, toNat_scalar _ (by omega), if_neg (by omega), if_neg (by omega),
      if_pos (by omega)]
    simp only [List.singleton_append, List.cons.injEq, ← UInt8.toNat_inj, and_true]
    rw [toNat_small _ (by omega), toNat_small _ (by omega), toNat_small _ (by omega)]
    omega

theorem begun_four {b low high : UInt8} {n : Nat} (lead : b.toNat = n + 0xF0) (small : n ≤ 4)
    (narrow : 0x80 ≤ low ∧ high ≤ 0xBF) (first : n = 0 → 0x90 ≤ low)
    (last : n = 4 → high ≤ 0x8F) : Unfinished.Begun ⟨3, low, high, n⟩ [b] where
  left := by simp
  narrow := narrow
  begun := by simp
  completes t tail size within each := by
    obtain ⟨s, r, rfl⟩ := List.length_eq_two.mp (by simpa using size)
    have inner := each s List.mem_cons_self
    have inner_last := each r (List.mem_cons_of_mem s List.mem_cons_self)
    simp only [UInt8.le_iff_toNat_le, UInt8.reduceToNat] at narrow first last within inner inner_last
    simp only [codeOf, List.foldl_cons, List.foldl_nil]
    rw [String.utf8EncodeChar, toNat_scalar _ (by omega), if_neg (by omega), if_neg (by omega),
      if_neg (by omega)]
    simp only [List.singleton_append, List.cons.injEq, ← UInt8.toNat_inj, and_true]
    rw [toNat_small _ (by omega), toNat_small _ (by omega), toNat_small _ (by omega),
      toNat_small _ (by omega)]
    omega

/-- A byte that leaves the sequence unfinished. -/
theorem Unfinished.Begun.more {u : Unfinished} {pending : List UInt8} {b : UInt8}
    (begun : u.Begun pending) (within : u.low ≤ b ∧ b ≤ u.high) (more : ¬u.left ≤ 1) :
    Unfinished.Begun ⟨u.left - 1, 0x80, 0xBF, u.code * 64 + (b.toNat - 0x80)⟩ (pending ++ [b]) where
  left := Nat.le_sub_one_of_lt (Nat.lt_of_not_le more)
  narrow := ⟨UInt8.le_refl 0x80, UInt8.le_refl 0xBF⟩
  begun := by simp
  completes t tail size range inner := by
    have longer : (t :: tail).length + 1 = u.left := by
      rw [List.length_cons, size]
      exact Nat.sub_add_cancel begun.left
    have whole := begun.completes b (t :: tail) longer within
      (List.forall_mem_cons.mpr ⟨range, inner⟩)
    rwa [codeOf, List.foldl_cons, ← codeOf, ← List.singleton_append, ← List.append_assoc] at whole

section Reads

variable {read : List (Option Char)} {bytes : List UInt8}

theorem Utf8Reader.Reads.closed {item : Option Char} {piece : List UInt8}
    (before : Reads ⟨read, none⟩ bytes) (stands : Stands item piece) :
    Reads ⟨item :: read, none⟩ (bytes ++ piece) := by
  obtain ⟨pieces, pending, rfl, each, rfl⟩ := before
  refine ⟨pieces ++ [piece], [], by simp, ?_, rfl⟩
  rw [List.reverse_cons]
  exact List.rel_append each (.cons stands .nil)

theorem Utf8Reader.Reads.opened {u : Unfinished} {piece : List UInt8}
    (before : Reads ⟨read, none⟩ bytes) (begun : u.Begun piece) :
    Reads ⟨read, some u⟩ (bytes ++ piece) := by
  obtain ⟨pieces, pending, rfl, each, rfl⟩ := before
  exact ⟨pieces, piece, by simp, each, begun⟩

/-- A byte that no sequence is waiting for. -/
theorem Utf8Reader.Reads.lead (before : Reads ⟨read, none⟩ bytes) (b : UInt8) :
    Reads (lead read b) (bytes ++ [b]) := by
  have wide : (0x80 : UInt8) ≤ 0x80 ∧ (0xBF : UInt8) ≤ 0xBF := by decide
  simp only [Utf8Reader.lead, UInt8.lt_iff_toNat_lt, ← UInt8.toNat_inj, UInt8.reduceToNat]
  split
  · rename_i small
    exact before.closed (encode_one b (UInt8.lt_iff_toNat_lt.mpr small))
  split
  · exact before.closed (show Stands none [b] by simp [Stands])
  split
  · exact before.opened (begun_two (by omega))
  split
  · exact before.opened (begun_three (by omega) (by omega) (by decide) (by decide) (by decide))
  split
  · exact before.opened (begun_three (by omega) (by omega) (by decide) (by decide) (by decide))
  split
  · exact before.opened (begun_three (by omega) (by omega) wide (by omega) (by omega))
  split
  · exact before.opened (begun_four (by omega) (by omega) (by decide) (by decide) (by decide))
  split
  · exact before.opened (begun_four (by omega) (by omega) wide (by omega) (by omega))
  split
  · exact before.opened (begun_four (by omega) (by omega) (by decide) (by decide) (by decide))
  · exact before.closed (show Stands none [b] by simp [Stands])

end Reads

theorem Utf8Reader.Reads.step {r : Utf8Reader} {bytes : List UInt8} (before : r.Reads bytes)
    (b : UInt8) : (r.step b).Reads (bytes ++ [b]) := by
  obtain ⟨read, pending?⟩ := r
  cases pending? with
  | none => exact before.lead b
  | some u =>
    obtain ⟨pieces, pending, rfl, each, begun⟩ := before
    simp only [Utf8Reader.step]
    split
    · rename_i within
      split
      · rename_i last
        have left : u.left = 1 := by have := begun.left; omega
        have whole := begun.completes b [] (by simp [left]) within (by simp)
        refine ⟨pieces ++ [pending ++ [b]], [], by simp, ?_, rfl⟩
        rw [List.reverse_cons]
        exact List.rel_append each (.cons whole .nil)
      · rename_i more
        refine ⟨pieces, pending ++ [b], by simp, each, ?_⟩
        exact begun.more within more
    · have broken : Reads ⟨none :: read, none⟩ (pieces.flatten ++ pending) := by
        refine ⟨pieces ++ [pending], [], by simp, ?_, rfl⟩
        rw [List.reverse_cons]
        exact List.rel_append each (.cons begun.begun .nil)
      exact broken.lead b

theorem reads_append {r : Utf8Reader} {bytes : List UInt8} (before : r.Reads bytes)
    (more : List UInt8) : (more.foldl Utf8Reader.step r).Reads (bytes ++ more) := by
  induction more generalizing r bytes with
  | nil => simpa using before
  | cons b more ih => simpa using ih (before.step b)

theorem reads_foldl (bytes : List UInt8) : (bytes.foldl step {}).Reads bytes :=
  reads_append ⟨[], [], rfl, .nil, rfl⟩ bytes

/-- Every scalar that is read has its encoding where it is read, and every broken stretch has
bytes. -/
theorem exists_pieces (bytes : List UInt8) :
    ∃ pieces, pieces.flatten = bytes ∧ List.Forall₂ Stands (scalars bytes) pieces := by
  have reads := reads_foldl bytes
  rw [scalars, finish]
  generalize bytes.foldl step {} = r at reads ⊢
  obtain ⟨pieces, pending, same, each, begun⟩ := reads
  cases ends : r.open? with
  | none =>
    rw [ends] at begun
    exact ⟨pieces, by simp [same, begun], each⟩
  | some u =>
    rw [ends] at begun
    refine ⟨pieces ++ [pending], by simp [same], ?_⟩
    simp only [Option.isSome_some, if_true, List.reverse_cons]
    exact List.rel_append each (.cons begun.begun .nil)

/-- An encoding is one byte below 0x80, or a byte that leads and others that follow. -/
theorem encode_cases (c : Char) :
    (c.toNat < 0x80 ∧ String.utf8EncodeChar c = [UInt8.ofNat c.toNat]) ∨
      ∃ b tail, String.utf8EncodeChar c = b :: tail ∧ 0xC0 ≤ b.toNat ∧ ∀ t ∈ tail, 0x80 ≤ t.toNat := by
  have small : c.val.toNat < 0x110000 := by
    have valid : c.val.toNat < 0xD800 ∨ 0xDFFF < c.val.toNat ∧ c.val.toNat < 0x110000 := c.valid
    omega
  have high {n least : Nat} (bounds : least ≤ n ∧ n < 256) : least ≤ (UInt8.ofNat n).toNat := by
    rw [toNat_small n bounds.2]
    exact bounds.1
  rw [String.utf8EncodeChar, Char.toNat]
  generalize c.val.toNat = v at small
  split
  · exact .inl ⟨by omega, rfl⟩
  right
  split
  · refine ⟨_, _, rfl, high (by omega), ?_⟩
    simp only [List.forall_mem_cons]
    exact ⟨high (by omega), List.forall_mem_nil _⟩
  split
  · refine ⟨_, _, rfl, high (by omega), ?_⟩
    simp only [List.forall_mem_cons]
    exact ⟨high (by omega), high (by omega), List.forall_mem_nil _⟩
  · refine ⟨_, _, rfl, high (by omega), ?_⟩
    simp only [List.forall_mem_cons]
    exact ⟨high (by omega), high (by omega), high (by omega), List.forall_mem_nil _⟩

/-- No encoding begins with a byte that a sequence can be waiting for. -/
theorem encode_front (c : Char) :
    ∃ b rest, String.utf8EncodeChar c = b :: rest ∧ ¬(0x80 ≤ b ∧ b ≤ 0xBF) := by
  rcases encode_cases c with ⟨small, alone⟩ | ⟨b, tail, several, lead, _⟩
  · refine ⟨_, _, alone, fun inside => ?_⟩
    have least := UInt8.le_iff_toNat_le.mp inside.1
    rw [toNat_small _ (by omega)] at least
    exact absurd least (Nat.not_le_of_lt small)
  · refine ⟨b, tail, several, fun inside => ?_⟩
    have most : b.toNat ≤ 0xBF := UInt8.le_iff_toNat_le.mp inside.2
    omega

/-- A byte that ends what is unfinished as a broken stretch. -/
theorem step_apart {r : Utf8Reader} {bytes : List UInt8} (reads : r.Reads bytes) {b : UInt8}
    (apart : ¬(0x80 ≤ b ∧ b ≤ 0xBF)) : r.step b = lead r.finish.reverse b := by
  obtain ⟨read, u?⟩ := r
  cases u? with
  | none => simp [Utf8Reader.step, finish]
  | some u =>
    obtain ⟨_, _, _, _, begun⟩ := reads
    have outside : ¬(u.low ≤ b ∧ b ≤ u.high) := fun within =>
      apart ⟨UInt8.le_trans begun.narrow.1 within.1, UInt8.le_trans within.2 begun.narrow.2⟩
    simp [Utf8Reader.step, finish, outside]

/-- The encoding of a text is read as the text behind any bytes. -/
theorem scalars_append_toUtf8 (bytes : List UInt8) (t : Text) :
    scalars (bytes ++ toUtf8 t) = scalars bytes ++ t.map some := by
  cases t with
  | nil => simp [toUtf8]
  | cons c t =>
    obtain ⟨b, rest, front, apart⟩ := encode_front c
    have start : (String.utf8EncodeChar c).foldl Utf8Reader.step (bytes.foldl Utf8Reader.step {}) =
        (String.utf8EncodeChar c).foldl Utf8Reader.step ⟨(scalars bytes).reverse, none⟩ := by
      rw [front, List.foldl_cons, List.foldl_cons, step_apart (reads_foldl bytes) apart]
      rfl
    have whole : toUtf8 (c :: t) = String.utf8EncodeChar c ++ toUtf8 t := rfl
    rw [scalars, whole, List.foldl_append, List.foldl_append, start, foldl_scalar, foldl_toUtf8]
    simp [finish]

theorem lead_append (read old : List (Option Char)) (b : UInt8) :
    lead (read ++ old) b = ⟨(lead read b).read ++ old, (lead read b).open?⟩ := by
  simp only [lead]
  repeat' split
  all_goals rfl

theorem step_append (read old : List (Option Char)) (u? : Option Unfinished) (b : UInt8) :
    step ⟨read ++ old, u?⟩ b = ⟨(step ⟨read, u?⟩ b).read ++ old, (step ⟨read, u?⟩ b).open?⟩ := by
  cases u? with
  | none => exact lead_append read old b
  | some u =>
    simp only [step]
    split
    · split <;> rfl
    · rw [← List.cons_append, lead_append]

/-- What was read before makes no difference to what is read next. -/
theorem foldl_append_read (bytes : List UInt8) (read old : List (Option Char))
    (u? : Option Unfinished) : (bytes.foldl step ⟨read ++ old, u?⟩).finish =
      old.reverse ++ (bytes.foldl step ⟨read, u?⟩).finish := by
  induction bytes generalizing read u? with
  | nil => cases u? <;> simp [finish]
  | cons b bytes ih => rw [List.foldl_cons, List.foldl_cons, step_append, ih]

/-- A byte below 0x80 stands for itself, whatever is around it. -/
theorem scalars_split (bytes more : List UInt8) {b : UInt8} (small : b < 0x80) :
    scalars (bytes ++ b :: more) = scalars bytes ++ some (Char.ofNat b.toNat) :: scalars more := by
  have apart : ¬(0x80 ≤ b ∧ b ≤ 0xBF) := fun within =>
    absurd (UInt8.lt_of_le_of_lt within.1 small) (UInt8.lt_irrefl 0x80)
  rw [scalars, List.foldl_append, List.foldl_cons, step_apart (reads_foldl bytes) apart, lead,
    if_pos small, ← List.nil_append (some _ :: _), foldl_append_read]
  simp [scalars]

theorem ofUtf8Lossy_split (bytes more : List UInt8) {b : UInt8} (small : b < 0x80) :
    ofUtf8Lossy (bytes ++ b :: more) =
      ofUtf8Lossy bytes ++ Char.ofNat b.toNat :: ofUtf8Lossy more := by
  rw [ofUtf8Lossy, scalars_split bytes more small, List.map_append]
  rfl

@[simp] theorem ofUtf8Lossy_toUtf8 (t : Text) : ofUtf8Lossy (toUtf8 t) = t := by
  rw [ofUtf8Lossy, scalars_toUtf8, List.map_map]
  exact List.map_id t

@[simp] theorem ofUtf8Lossy_append (bytes : List UInt8) (t : Text) :
    ofUtf8Lossy (bytes ++ toUtf8 t) = ofUtf8Lossy bytes ++ t := by
  rw [ofUtf8Lossy, scalars_append_toUtf8, List.map_append, List.map_map]
  exact congrArg _ (List.map_id t)

theorem ofUtf8Lossy_eq_nil_iff (bytes : List UInt8) : ofUtf8Lossy bytes = [] ↔ bytes = [] := by
  constructor
  · intro empty
    obtain ⟨pieces, rfl, each⟩ := exists_pieces bytes
    rw [List.map_eq_nil_iff.mp empty, List.forall₂_nil_left_iff] at each
    rw [each, List.flatten_nil]
  · rintro rfl
    rfl

/-- Scalars that are read without a broken stretch among them are read of their encodings. -/
theorem flatten_pieces {items : List (Option Char)} {pieces : List (List UInt8)}
    (each : List.Forall₂ Stands items pieces) {t : Text} (shown : items.map (·.getD '\uFFFD') = t)
    (whole : '\uFFFD' ∉ t) : pieces.flatten = toUtf8 t := by
  subst shown
  induction each with
  | nil => rfl
  | @cons item piece items pieces stands each ih =>
    rw [List.map_cons, List.mem_cons, not_or] at whole
    cases item with
    | none => exact absurd rfl whole.1
    | some c =>
      obtain rfl : piece = String.utf8EncodeChar c := stands
      rw [List.flatten_cons, ih whole.2]
      rfl

/-- What is shown at the end without a mark for a broken stretch is encoded there. -/
theorem ofUtf8Lossy_eq_append {bytes : List UInt8} {t more : Text} (whole : '\uFFFD' ∉ more)
    (shown : ofUtf8Lossy bytes = t ++ more) :
    ∃ front, bytes = front ++ toUtf8 more ∧ ofUtf8Lossy front = t := by
  obtain ⟨pieces, rfl, each⟩ := exists_pieces bytes
  obtain ⟨items, rest, split, _, ending⟩ := List.map_eq_append_iff.mp shown
  have behind := List.forall₂_drop items.length each
  rw [split, List.drop_left] at behind
  have same : pieces.flatten = (pieces.take items.length).flatten ++ toUtf8 more := by
    rw [← flatten_pieces behind ending whole, ← List.flatten_append, List.take_append_drop]
  rw [same, ofUtf8Lossy_append] at shown
  exact ⟨_, same, List.append_cancel_right shown⟩

/-- What is shown without a mark for a broken stretch is the text that the bytes encode. -/
theorem toUtf8_ofUtf8Lossy (bytes : List UInt8) (whole : '\uFFFD' ∉ ofUtf8Lossy bytes) :
    toUtf8 (ofUtf8Lossy bytes) = bytes := by
  obtain ⟨front, same, empty⟩ := ofUtf8Lossy_eq_append whole (List.nil_append _).symm
  rw [(ofUtf8Lossy_eq_nil_iff front).mp empty] at same
  exact same.symm

theorem encode_ascii {c : Char} (small : c.toNat < 0x80) :
    String.utf8EncodeChar c = [UInt8.ofNat c.toNat] := by
  have small : c.val.toNat < 128 := small
  simp only [String.utf8EncodeChar, if_pos (show c.val.toNat ≤ 127 by omega)]
  rfl

/-- An ASCII character that is shown stands in the bytes. -/
theorem mem_of_mem_lossy {bytes : List UInt8} {c : Char} (small : c.toNat < 0x80)
    (member : c ∈ ofUtf8Lossy bytes) : UInt8.ofNat c.toNat ∈ bytes := by
  obtain ⟨pieces, rfl, each⟩ := exists_pieces bytes
  rw [ofUtf8Lossy] at member
  generalize scalars pieces.flatten = items at member each
  induction each with
  | nil => cases member
  | @cons item piece items pieces stands each ih =>
    rw [List.flatten_cons, List.mem_append]
    rw [List.map_cons, List.mem_cons] at member
    rcases member with here | later
    · cases item with
      | none =>
        rw [here] at small
        exact absurd small (by decide)
      | some d =>
        obtain rfl : piece = String.utf8EncodeChar d := stands
        obtain rfl : c = d := here
        exact .inl (encode_ascii small ▸ List.mem_singleton.mpr rfl)
    · exact .inr (ih later)

/-- A byte below 0x80 is the whole encoding of its character. -/
theorem encode_of_mem {b : UInt8} (small : b < 0x80) {c : Char}
    (member : b ∈ String.utf8EncodeChar c) : Char.ofNat b.toNat = c := by
  have small : b.toNat < 0x80 := UInt8.lt_iff_toNat_lt.mp small
  rcases encode_cases c with ⟨low, alone⟩ | ⟨lead, tail, several, high, follow⟩
  · rw [alone, List.mem_singleton] at member
    rw [member, toNat_small _ (by omega)]
    exact Char.ofNat_toNat c
  · rw [several, List.mem_cons] at member
    rcases member with rfl | later
    · omega
    · exact absurd (follow b later) (Nat.not_le_of_lt small)

theorem mem_toUtf8_ascii {b : UInt8} (small : b < 0x80) (t : Text) :
    b ∈ toUtf8 t ↔ Char.ofNat b.toNat ∈ t := by
  constructor
  · intro member
    obtain ⟨c, there, inside⟩ := List.mem_flatMap.mp member
    exact encode_of_mem small inside ▸ there
  · intro member
    refine List.mem_flatMap.mpr ⟨_, member, ?_⟩
    rw [← encode_one b small]
    exact List.mem_singleton.mpr rfl

end SmaliReport.Text
