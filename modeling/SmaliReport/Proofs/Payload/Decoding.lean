import Mathlib.Data.List.Nodup
import SmaliReport.Description.Read
import SmaliReport.Proofs.Payload.Reading

/-!
A message is read back from every encoding. The items of one field are followed through the items
of the others: reading an item changes the value of its own field alone, so what counts for a
field is the row of its own items, and the values of all fields make the message.
-/

namespace SmaliReport.Payload

variable {σ τ α β : Type}

/-- What a value becomes by the items of its field, one behind the other. -/
inductive Merges (merge : WireType → α → Reader α) : α → List Item → α → Prop
  | done {a : α} : Merges merge a [] a
  | more {a mid last : α} {item : Item} {items : List Item} :
      Reads (merge item.key.wireType a) item.content mid → Merges merge mid items last →
        Merges merge a (item :: items) last

theorem merges_last {form : β → Item → Prop} (merge : WireType → Option β → Reader (Option β))
    (reads : ∀ b item a, form b item → Reads (merge item.key.wireType a) item.content (some b))
    {bs : List β} {items : List Item} (written : List.Forall₂ form bs items) (a : Option β) :
    Merges merge a items (bs.getLast?.or a) := by
  induction written generalizing a with
  | nil => exact .done
  | @cons b item bs items first _ ih =>
    have later := ih (some b)
    have same : (b :: bs).getLast?.or a = bs.getLast?.or (some b) := by
      rw [List.getLast?_cons]
      cases bs.getLast? <;> rfl
    exact same ▸ .more (reads b item a first) later

theorem merges_append {form : List β → Item → Prop} (merge : WireType → List β → Reader (List β))
    (reads : ∀ bs item as, form bs item →
      Reads (merge item.key.wireType as) item.content (as ++ bs))
    {chunks : List (List β)} {items : List Item} (written : List.Forall₂ form chunks items)
    (as : List β) : Merges merge as items (as ++ chunks.flatten) := by
  induction written generalizing as with
  | nil =>
    rw [List.flatten_nil, List.append_nil]
    exact .done
  | @cons bs item chunks items first _ ih =>
    rw [List.flatten_cons, ← List.append_assoc]
    exact .more (reads bs item as first) (ih (as ++ bs))

theorem Packed.steps {ns : List Int32} {body : List UInt8} (packed : Packed ns body)
    {append : List Int32 → Reader (List Int32)}
    (reads : ∀ ms n bytes, Int32Bytes n bytes → Reads (append ms) bytes (ms ++ [n]))
    (ms : List Int32) : Steps append ms body (ms ++ ns) := by
  induction packed generalizing ms with
  | nil =>
    rw [List.append_nil]
    exact .done
  | @cons n ns first rest number _ ih =>
    have later := ih (ms ++ [n])
    rw [List.append_assoc] at later
    exact .more (reads ms n first number) number.ne_nil later

theorem expect_self (wireType : WireType) : expect wireType wireType = .ok () := if_pos rfl

theorem Chunk.reads {ns : List Int32} {item : Item} (chunk : Chunk ns item) (tag depth : Nat)
    (name : String) (slot : Slot σ (List Int32)) (ms : List Int32) :
    Reads ((Field.ints tag name slot).merge depth item.key.wireType ms) item.content
      (ms ++ ns) := by
  have append_reads : ∀ ms n bytes, Int32Bytes n bytes →
      Reads (fun input => (int32 input).map fun read => (ms ++ [read.1], read.2)) bytes
        (ms ++ [n]) := by
    intro ms n bytes number rest
    simp only [number.reads rest, Except.map]
  rcases chunk with ⟨n, rfl, wireType, number⟩ | ⟨wireType, body, packed, frame⟩
  · intro rest
    simp only [Field.ints, wireType, reduceCtorEq, if_false, expect_self, bind, Except.bind]
    exact append_reads ms n item.content number rest
  · intro rest
    simp only [Field.ints, wireType, if_true]
    exact (packed.steps append_reads ms).framed frame rest

/-- Items of different fields do not disturb each other, however they are interleaved. -/
theorem steps_spelled (schema : Schema σ) {depth : Nat} {items : List Item} {bytes : List UInt8}
    (spelled : Spelled items bytes) (start m : σ)
    (declared : ∀ field ∈ schema.fields, Merges (field.merge depth) (field.slot.get start)
      (items.filter fun item => field.tag = item.key.tag) (field.slot.get m))
    (undeclared : ∀ item ∈ items, (∀ field ∈ schema.fields, field.tag ≠ item.key.tag) →
      Content depth item.key item.content) :
    Steps (schema.readField depth) start bytes m := by
  induction spelled generalizing start with
  | nil =>
    have same : start = m := by
      refine schema.complete start m fun field member => ?_
      have merges := declared field member
      generalize field.slot.get start = a, field.slot.get m = b at merges
      cases merges
      rfl
    exact same ▸ .done
  | @cons item items name rest written _ ih =>
    have later := List.forall_mem_of_forall_mem_cons undeclared
    have nonempty : name ++ item.content ≠ [] := by simp [written.spelled.ne_nil]
    cases found : schema.fields.find? (·.tag = item.key.tag) with
    | none =>
      have other : ∀ field ∈ schema.fields, field.tag ≠ item.key.tag := by simpa using found
      refine .more (fun rest => ?_) nonempty (ih start (fun field member => ?_) later)
      · simp only [Schema.readField, List.append_assoc, written.reads (item.content ++ rest),
          bind, Except.bind, found, (undeclared item (by simp) other).skipped rest, Except.map]
      · have merges := declared field member
        rwa [List.filter_cons_of_neg (by simpa using other field member)] at merges
    | some own =>
      have own_mem : own ∈ schema.fields := List.mem_of_find?_eq_some found
      have own_tag : own.tag = item.key.tag := by simpa using List.find?_some found
      have merges := declared own own_mem
      rw [List.filter_cons_of_pos (by simpa using own_tag)] at merges
      generalize last_eq : own.slot.get m = last at merges
      cases merges with
      | @more _ mid _ _ _ reads merges =>
        refine .more (fun rest => ?_) nonempty
          (ih (own.slot.set mid start) (fun field member => ?_) later)
        · simp only [Schema.readField, List.append_assoc, written.reads (item.content ++ rest),
            bind, Except.bind, found, Field.read, reads rest, Except.mapError]
        · by_cases tag : field.tag = item.key.tag
          · obtain rfl : field = own :=
              List.inj_on_of_nodup_map schema.unique member own_mem (tag.trans own_tag.symm)
            rw [schema.kept field member, last_eq]
            exact merges
          · have untouched := declared field member
            rw [List.filter_cons_of_neg (by simpa using tag)] at untouched
            rwa [schema.apart own own_mem field member (fun same => tag (same ▸ own_tag))]

section Carries

variable {part : {τ : Type} → Schema τ → τ → List UInt8 → Prop} {depth : Nat}
  (inside : ∀ {τ : Type} (schema : Schema τ) (m : τ) (body bytes : List UInt8),
    part schema m body → Frame body bytes →
      Reads (schema.readContent depth .delimited schema.empty) bytes m)

include inside

theorem Carries.merges {field : Field σ} {a : field.Value} {items : List Item}
    (carries : Carries part field a items) :
    Merges (field.merge depth) field.absent items a := by
  cases carries with
  | @int tag name slot ns _ written =>
    have last := merges_last ((Field.int tag name slot).merge depth)
      (fun n item a ⟨wireType, number⟩ rest => by
        simp only [Field.int, wireType, expect_self, bind, Except.bind, number.reads rest])
      written none
    rwa [Option.or_none] at last
  | @ints tag name slot chunks _ written =>
    exact merges_append ((Field.ints tag name slot).merge depth)
      (fun ns item ms chunk => chunk.reads tag depth name slot ms) written []
  | @text tag name slot texts _ written =>
    have last := merges_last ((Field.text tag name slot).merge depth)
      (fun t item a ⟨wireType, frame⟩ rest => by
        simp only [Field.text, wireType, expect_self, bind, Except.bind, frame.reads rest,
          Text.ofUtf8_toUtf8])
      written none
    rwa [Option.or_none] at last
  | absent => exact .done
  | @message _ tag name schema slot m item written =>
    obtain ⟨wireType, body, content, frame⟩ := written
    refine .more (fun rest => ?_) .done
    simp only [Field.message, wireType, Option.getD_none, bind, Except.bind,
      inside schema m body item.content content frame rest]
  | @messages _ tag name schema slot ms _ written =>
    have written_ones : List.Forall₂ (fun ms item => ∃ m, ms = [m] ∧
        item.Is .delimited fun bytes => ∃ body, part schema m body ∧ Frame body bytes)
        (ms.map fun m => [m]) items :=
      List.forall₂_map_left_iff.mpr (written.imp fun m item each => ⟨m, rfl, each⟩)
    have appended := merges_append ((Field.messages tag name schema slot).merge depth)
      (fun ms item earlier ⟨m, one, wireType, body, content, frame⟩ rest => by
        simp only [Field.messages, wireType, bind, Except.bind, one,
          inside schema m body item.content content frame rest])
      written_ones []
    rwa [List.nil_append, ← List.flatMap_def, List.flatMap_singleton'] at appended

theorem Itemized.steps {schema : Schema σ} {m : σ} {items : List Item} {bytes : List UInt8}
    (itemized : Itemized part depth schema m items) (spelled : Spelled items bytes) :
    Steps (schema.readField depth) schema.empty bytes m := by
  refine steps_spelled schema spelled schema.empty m (fun field member => ?_)
    itemized.undeclared
  rw [schema.absent field member]
  exact (itemized.declared field member).merges inside

end Carries

theorem Encodes.readContent {depth : Nat} {schema : Schema σ} {m : σ} {body bytes : List UInt8}
    (encodes : Encodes depth schema m body) (frame : Frame body bytes) :
    Reads (schema.readContent depth .delimited schema.empty) bytes m := by
  induction depth generalizing σ body bytes with
  | zero => exact encodes.elim
  | succ depth ih =>
    obtain ⟨items, itemized, spelled⟩ := encodes
    have steps := itemized.steps (fun _ _ _ _ content frame => ih content frame) spelled
    intro rest
    simp only [Schema.readContent, expect_self, bind, Except.bind]
    exact steps.framed frame rest

theorem Encodes.readAll {depth : Nat} {schema : Schema σ} {m : σ} {bytes : List UInt8}
    (encodes : Encodes (depth + 1) schema m bytes) : schema.readAll depth bytes = .ok m := by
  obtain ⟨items, itemized, spelled⟩ := encodes
  have steps := itemized.steps (fun _ _ _ _ content frame => content.readContent frame) spelled
  have all := steps.repeatAbove []
  rw [List.append_nil, List.length_nil] at all
  simp only [Schema.readAll, all, Except.map]

/-- The payload bytes for a string table and a message. -/
def Encoded (schema : Schema σ) (types : StringTableTypes) (m : σ) (bytes : List UInt8) : Prop :=
  ∃ table frame content, Encodes 100 StringTableTypes.schema types table ∧ Frame table frame ∧
    Encodes 101 schema m content ∧ bytes = frame ++ content

/-- The kinds of headers with a message in their payload, and what message it is. -/
inductive MessageOf : Int32 → {σ : Type} → Schema σ → Prop
  | class : MessageOf 1 Class.schema
  | facade : MessageOf 2 Package.schema
  | lambda : MessageOf 3 Function.schema
  | part : MessageOf 5 Package.schema

theorem Encoded.read {schema : Schema σ} {types : StringTableTypes} {m : σ} {bytes : List UInt8}
    (encoded : Encoded schema types m bytes) : read schema bytes = .ok (types, m) := by
  obtain ⟨table, frame, content, types_encoded, framed, encodes, rfl⟩ := encoded
  simp only [Payload.read, types_encoded.readContent framed content, bind, Except.bind,
    encodes.readAll]

theorem Encoded.ne_nil {schema : Schema σ} {types : StringTableTypes} {m : σ} {bytes : List UInt8}
    (encoded : Encoded schema types m bytes) : bytes ≠ [] := by
  obtain ⟨table, frame, content, _, ⟨length, written, rfl⟩, _, rfl⟩ := encoded
  simp [written.ne_nil]

theorem bytesOf_blank (texts : List Text) (blank : texts.all List.isEmpty) :
    bytesOf texts = [] := by
  have flat : texts.flatten = [] := by simpa using blank
  have first (c : Char) (t : Text) (rest : List Text) : texts ≠ (c :: t) :: rest := by
    rintro rfl
    simp at blank
  unfold bytesOf
  split
  · exact absurd rfl (first _ _ _)
  · exact absurd rfl (first _ _ _)
  · rw [flat]
    rfl

theorem Encoded.spoken {schema : Schema σ} {types : StringTableTypes} {m : σ} {texts : List Text}
    (encoded : Encoded schema types m (bytesOf texts)) : texts.all List.isEmpty = false := by
  cases blank : texts.all List.isEmpty with
  | false => rfl
  | true => exact absurd (bytesOf_blank texts blank) encoded.ne_nil

/-- Every encoding of a string table and a message is read as these two, so what a header
describes, or why it cannot, does not depend on how its payload is encoded. -/
theorem read_encoded (schema : Schema σ) (types : StringTableTypes) (m : σ) (bytes : List UInt8)
    (encoded : Encoded schema types m bytes) :
    read schema bytes = .ok (types, m) ∧
      ∀ (h : Header) (texts : List Text) (given : texts ≠ []), MessageOf h.kind schema →
        bytesOf h.data1 = bytes → Encoded schema types m (bytesOf texts) →
          { h with data1 := texts, data1_ne_nil := given }.describe = h.describe := by
  refine ⟨encoded.read, ?_⟩
  rintro ⟨kind, _, _, _, _, _, data1, _, _⟩ texts given message rfl other
  have same (h h' : Header) (left : Encoded schema types m (bytesOf h.data1))
      (right : Encoded schema types m (bytesOf h'.data1)) (names : h.data2 = h'.data2) :
      h.content schema = h'.content schema := by
    simp only [Header.content, left.read, right.read, names]
  have package (h h' : Header) (same : h.content Package.schema = h'.content Package.schema) :
      h.package = h'.package := by
    simp only [Header.package, same]
  cases message with
  | «class» =>
    apply if_congr Iff.rfl rfl
    exact congrArg (· >>= _) (same _ _ other encoded rfl)
  | facade =>
    apply if_congr Iff.rfl rfl
    exact congrArg (Except.map _) (package _ _ (same _ _ other encoded rfl))
  | lambda =>
    apply if_congr Iff.rfl rfl
    refine if_congr ?_ rfl (congrArg (· >>= _) (same _ _ other encoded rfl))
    rw [other.spoken, encoded.spoken]
  | part =>
    apply if_congr Iff.rfl rfl
    exact congrArg (Except.map _) (package _ _ (same _ _ other encoded rfl))

theorem varint_one (b : UInt8) (low : b < 0x80) : Varint b.toNat [b] where
  groups := .last b low
  short := by simp
  small := by
    have := b.toNat_lt
    omega

/-- Local names half packed and half single, with an overlong varint; a module name given twice;
and a group that no message declares. -/
theorem read_encoded_mixed :
    Encoded Package.schema { localNames := [1, 2] } { moduleName := some 0 }
        ([0x07, 0x2A, 0x01, 0x01, 0x28, 0x82, 0x80, 0x00] ++
          [0xA8, 0x06, 0x07, 0x0B, 0x10, 0x05, 0x0C, 0xA8, 0x06, 0x00]) ∧
      read Package.schema ([0x07, 0x2A, 0x01, 0x01, 0x28, 0x82, 0x80, 0x00] ++
          [0xA8, 0x06, 0x07, 0x0B, 0x10, 0x05, 0x0C, 0xA8, 0x06, 0x00]) =
        .ok ({ localNames := [1, 2] }, { moduleName := some 0 }) := by
  have types : Encodes 100 StringTableTypes.schema { localNames := [1, 2] }
      [0x2A, 0x01, 0x01, 0x28, 0x82, 0x80, 0x00] := by
    have packed : Key.Bytes ⟨5, .delimited⟩ [0x2A] :=
      ⟨by decide, by decide, varint_one 0x2A (by decide)⟩
    have single : Key.Bytes ⟨5, .varint⟩ [0x28] :=
      ⟨by decide, by decide, varint_one 0x28 (by decide)⟩
    have one : Varint 1 [0x01] := varint_one 0x01 (by decide)
    have two : Varint 2 [0x82, 0x80, 0x00] :=
      ⟨.more 0x82 (by decide) (.more 0x80 (by decide) (.last 0x00 (by decide))), by decide,
        by decide⟩
    have chunks : List.Forall₂ Chunk [[1], [2]] [⟨⟨5, .delimited⟩, [0x01, 0x01]⟩,
        ⟨⟨5, .varint⟩, [0x82, 0x80, 0x00]⟩] :=
      .cons (.inr ⟨rfl, [0x01], .cons ⟨1, one, rfl⟩ .nil, [0x01], one, rfl⟩)
        (.cons (.inl ⟨2, rfl, rfl, 2, two, rfl⟩) .nil)
    refine ⟨_, ⟨?_, ?_⟩, @Spelled.cons ⟨⟨5, .delimited⟩, [0x01, 0x01]⟩ _ _ _ packed
      (@Spelled.cons ⟨⟨5, .varint⟩, [0x82, 0x80, 0x00]⟩ _ _ _ single .nil)⟩
    · exact List.forall_mem_cons.mpr ⟨.messages .nil,
        List.forall_mem_cons.mpr ⟨.ints chunks, List.forall_mem_nil _⟩⟩
    · simp [StringTableTypes.schema, Field.ints, Field.messages]
  have content : Encodes 101 Package.schema { moduleName := some 0 }
      [0xA8, 0x06, 0x07, 0x0B, 0x10, 0x05, 0x0C, 0xA8, 0x06, 0x00] := by
    have name : Key.Bytes ⟨101, .varint⟩ [0xA8, 0x06] :=
      ⟨by decide, by decide, .more 0xA8 (by decide) (.last 0x06 (by decide)), by decide, by decide⟩
    have start : Key.Bytes ⟨1, .groupStart⟩ [0x0B] :=
      ⟨by decide, by decide, varint_one 0x0B (by decide)⟩
    have inner : Key.Bytes ⟨2, .varint⟩ [0x10] :=
      ⟨by decide, by decide, varint_one 0x10 (by decide)⟩
    have stop : Key.Bytes ⟨1, .groupEnd⟩ [0x0C] :=
      ⟨by decide, by decide, varint_one 0x0C (by decide)⟩
    have group : Content 100 ⟨1, .groupStart⟩ [0x10, 0x05, 0x0C] :=
      @Group.more _ _ _ _ [0x05] _ inner ⟨5, varint_one 0x05 (by decide)⟩ (.close stop)
    have names : List.Forall₂ (fun n (item : Item) => item.Is .varint (Int32Bytes n)) [7, 0]
        [⟨⟨101, .varint⟩, [0x07]⟩, ⟨⟨101, .varint⟩, [0x00]⟩] :=
      .cons ⟨rfl, 7, varint_one 0x07 (by decide), rfl⟩
        (.cons ⟨rfl, 0, varint_one 0x00 (by decide), rfl⟩ .nil)
    refine ⟨_, ⟨?_, ?_⟩, @Spelled.cons ⟨⟨101, .varint⟩, [0x07]⟩ _ _ _ name
      (@Spelled.cons ⟨⟨1, .groupStart⟩, [0x10, 0x05, 0x0C]⟩ _ _ _ start
        (@Spelled.cons ⟨⟨101, .varint⟩, [0x00]⟩ _ _ _ name .nil))⟩
    · simp only [Package.schema, List.forall_mem_cons]
      exact ⟨.messages .nil, .messages .nil, .messages .nil, .absent, .int names,
        List.forall_mem_nil _⟩
    · have declared : ∃ field ∈ Package.schema.fields, field.tag = 101 :=
        ⟨_, .tail _ (.tail _ (.tail _ (.tail _ (.head _)))), rfl⟩
      obtain ⟨field, member, tag⟩ := declared
      simp only [List.forall_mem_cons]
      exact ⟨fun other => absurd tag (other field member), fun _ => group,
        fun other => absurd tag (other field member), List.forall_mem_nil _⟩
  have encoded : Encoded Package.schema { localNames := [1, 2] } { moduleName := some 0 } _ :=
    ⟨_, _, _, types, ⟨_, varint_one 0x07 (by decide), rfl⟩, content, rfl⟩
  exact ⟨encoded, (read_encoded _ _ _ _ encoded).1⟩

end SmaliReport.Payload
