import SmaliReport.Proofs.Payload.Encoding
import SmaliReport.Proofs.Text.Utf8

/-!
Each reader takes what is written for it and leaves the bytes behind it alone. A loop over parts
follows from what its step does with one part.
-/

namespace SmaliReport.Payload

variable {σ α : Type}

/-- The reader takes exactly `bytes`, whatever stands behind them. -/
def Reads (reader : Reader α) (bytes : List UInt8) (a : α) : Prop :=
  ∀ rest, reader (bytes ++ rest) = .ok (a, rest)

theorem Groups.ne_nil {n : Nat} {bytes : List UInt8} (groups : Groups n bytes) : bytes ≠ [] := by
  cases groups <;> simp

/-- In the tenth group, which holds one bit, the bound on the number is what `size = 0` checks. -/
theorem varintUpTo_groups {n : Nat} {bytes : List UInt8} (groups : Groups n bytes) (size : Nat)
    (short : bytes.length ≤ size) (small : n < 2 ^ (7 * (size - 1) + 1)) :
    Reads (varintUpTo size) bytes n := by
  induction groups generalizing size with
  | last b hb =>
    intro rest
    cases size with
    | zero => simp at short
    | succ size =>
      have fits : ¬(size = 0 ∧ 2 ≤ b) := by
        rintro ⟨rfl, two⟩
        have := UInt8.le_iff_toNat_le.mp two
        simp at small this
        omega
      simp only [varintUpTo, List.cons_append, List.nil_append, if_pos hb, if_neg fits]
  | @more b high bytes hb groups ih =>
    intro rest
    cases size with
    | zero => simp at short
    | succ size =>
      have above : ¬b < 0x80 := by
        intro below
        exact absurd (UInt8.lt_of_lt_of_le below hb) (UInt8.lt_irrefl _)
      have nonempty := List.length_pos_of_ne_nil groups.ne_nil
      simp only [List.length_cons] at short
      have rest_small : high < 2 ^ (7 * (size - 1) + 1) := by
        have : 7 * (size + 1 - 1) + 1 = (7 * (size - 1) + 1) + 7 := by omega
        rw [this, Nat.pow_add] at small
        omega
      simp only [varintUpTo, List.cons_append, if_neg above, ih size (by omega) rest_small rest]
      rfl

theorem Varint.reads {n : Nat} {bytes : List UInt8} (written : Varint n bytes) :
    Reads varint bytes n :=
  varintUpTo_groups written.groups 10 written.short written.small

theorem Varint.ne_nil {n : Nat} {bytes : List UInt8} (written : Varint n bytes) : bytes ≠ [] :=
  written.groups.ne_nil

theorem WireType.ofNat?_number (wireType : WireType) :
    WireType.ofNat? wireType.number = some wireType := by
  cases wireType <;> rfl

theorem WireType.number_lt (wireType : WireType) : wireType.number < 8 := by
  cases wireType <;> decide

theorem Key.Bytes.reads {entry : Key} {bytes : List UInt8} (written : entry.Bytes bytes) :
    Reads key bytes entry := by
  intro rest
  have small := entry.wireType.number_lt
  have tagged := written.tagged
  have low : (8 * entry.tag + entry.wireType.number) % 8 = entry.wireType.number := by omega
  have high : (8 * entry.tag + entry.wireType.number) / 8 = entry.tag := by omega
  have narrow : ¬0xFFFFFFFF < 8 * entry.tag + entry.wireType.number := by
    have := written.narrow
    omega
  have untagged : ¬entry.tag = 0 := by omega
  simp only [key, written.spelled.reads rest, bind, Except.bind, if_neg narrow, low, high,
    WireType.ofNat?_number, if_neg untagged]

theorem reads_take (bytes : List UInt8) : Reads (take bytes.length) bytes bytes := by
  intro rest
  have enough : ¬(bytes ++ rest).length < bytes.length := by simp
  simp only [take, if_neg enough, List.take_left, List.drop_left]

theorem Frame.reads {body bytes : List UInt8} (frame : Frame body bytes) :
    Reads delimited bytes body := by
  obtain ⟨length, written, rfl⟩ := frame
  intro rest
  simp only [delimited, List.append_assoc, written.reads (body ++ rest), bind, Except.bind]
  exact reads_take body rest

theorem Int32Bytes.reads {n : Int32} {bytes : List UInt8} (written : Int32Bytes n bytes) :
    Reads int32 bytes n := by
  obtain ⟨value, varint, same⟩ := written
  intro rest
  have value_eq : Int32.ofNat value = n := by
    apply Int32.toInt_inj.mp
    calc (Int32.ofNat value).toInt
        = ((value : Int) % 2 ^ 32).bmod (2 ^ 32) := by
          rw [Int32.toInt_ofNat']
          exact (Int.emod_bmod _ _).symm
      _ = n.toInt.bmod (2 ^ 32) := by
          rw [same]
          exact Int.emod_bmod _ _
      _ = n.toInt := n.toInt_bmod_size
  simp only [int32, varint.reads rest, Except.map, value_eq]

theorem Int32Bytes.ne_nil {n : Int32} {bytes : List UInt8} (written : Int32Bytes n bytes) :
    bytes ≠ [] := by
  obtain ⟨value, varint, _⟩ := written
  exact varint.ne_nil

/-- What a step does with parts that stand one behind the other. -/
inductive Steps (step : σ → Reader σ) : σ → List UInt8 → σ → Prop
  | done {s : σ} : Steps step s [] s
  | more {s mid last : σ} {part bytes : List UInt8} :
      Reads (step s) part mid → part ≠ [] → Steps step mid bytes last →
        Steps step s (part ++ bytes) last

theorem Steps.repeatAbove_append {step : σ → Reader σ} {s last : σ} {bytes : List UInt8}
    (steps : Steps step s bytes last) {floor : Nat} (rest : List UInt8)
    (enough : floor ≤ rest.length) :
    repeatAbove floor step s (bytes ++ rest) = repeatAbove floor step last rest := by
  induction steps with
  | done => rfl
  | @more s mid last part bytes reads nonempty steps ih =>
    have long := List.length_pos_of_ne_nil nonempty
    have above : floor < (part ++ bytes ++ rest).length := by
      simp only [List.length_append]
      omega
    have shorter : (bytes ++ rest).length < (part ++ bytes ++ rest).length := by
      simp only [List.length_append]
      omega
    rw [repeatAbove, if_pos above, List.append_assoc, reads (bytes ++ rest)]
    simp only [← List.append_assoc, if_pos shorter, ih]

theorem Steps.repeatAbove {step : σ → Reader σ} {s last : σ} {bytes : List UInt8}
    (steps : Steps step s bytes last) (rest : List UInt8) :
    repeatAbove rest.length step s (bytes ++ rest) = .ok (last, rest) := by
  rw [steps.repeatAbove_append rest (Nat.le_refl _), Payload.repeatAbove]
  simp

theorem Steps.framed {step : σ → Reader σ} {s last : σ} {body bytes : List UInt8}
    (steps : Steps step s body last) (frame : Frame body bytes) :
    Reads (framed step s) bytes last := by
  obtain ⟨length, written, rfl⟩ := frame
  intro rest
  have count : (body ++ rest).length - body.length = rest.length := by simp
  have enough : ¬(body ++ rest).length < body.length := by simp
  simp only [Payload.framed, List.append_assoc, written.reads (body ++ rest), bind, Except.bind,
    if_neg enough, count, steps.repeatAbove rest, if_true]

theorem Group.skipped {entry : Key → List UInt8 → Prop} {skipEntry : Key → Reader Unit}
    (skips : ∀ field content, entry field content → Reads (skipEntry field) content ())
    (started : ∀ field content, entry field content → field.wireType ≠ .groupEnd) {tag : Nat}
    {bytes : List UInt8} (group : Group entry tag bytes) :
    Reads (skipGroup skipEntry tag) bytes () := by
  induction group with
  | close ending =>
    intro rest
    rw [skipGroup, ending.reads rest]
    simp
  | @more field name content bytes written allowed group ih =>
    intro rest
    have long := List.length_pos_of_ne_nil written.spelled.ne_nil
    have shorter : (bytes ++ rest).length < (name ++ (content ++ (bytes ++ rest))).length := by
      simp only [List.length_append]
      omega
    simp only [List.append_assoc]
    rw [skipGroup, written.reads (content ++ (bytes ++ rest))]
    simp only [if_neg (started field content allowed), skips field content allowed (bytes ++ rest),
      if_pos shorter, ih rest]

theorem Content.started {depth : Nat} {entry : Key} {content : List UInt8}
    (allowed : Content depth entry content) : entry.wireType ≠ .groupEnd := by
  intro ended
  cases depth with
  | zero => exact allowed
  | succ depth => simp [Content, ended] at allowed

theorem Content.skipped {depth : Nat} {entry : Key} {content : List UInt8}
    (allowed : Content depth entry content) : Reads (skip depth entry) content () := by
  induction depth generalizing entry content with
  | zero => exact allowed.elim
  | succ depth ih =>
    intro rest
    have taken (count : Nat) (length : content.length = count) :
        take count (content ++ rest) = .ok (content, rest) := length ▸ reads_take content rest
    unfold Content at allowed
    unfold skip
    cases wireType : entry.wireType <;> simp only [wireType] at allowed ⊢
    case varint =>
      obtain ⟨n, written⟩ := allowed
      simp only [written.reads rest, Except.map]
    case bits64 => simp only [taken 8 allowed, Except.map]
    case delimited =>
      obtain ⟨body, frame⟩ := allowed
      simp only [frame.reads rest, Except.map]
    case groupStart =>
      exact allowed.skipped (fun _ _ inner => ih inner) (fun _ _ inner => inner.started) rest
    case bits32 => simp only [taken 4 allowed, Except.map]

end SmaliReport.Payload
