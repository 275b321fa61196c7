import SmaliReport.Proofs.Payload.Decoding

/-!
Payloads that are cut short. A reader needs all the bytes of what is written for it: a number
without its last group has no end, and a frame or a fixed width asks for more bytes than are left,
whatever stands inside. So a cut shows unless it is between two fields of the message.
-/

namespace SmaliReport.Payload

variable {σ α β : Type}

/-- The reader fails on these bytes without the last ones. -/
def Needs (reader : Reader α) (bytes : List UInt8) : Prop :=
  ∀ front missing, front ++ missing = bytes → missing ≠ [] → ∃ e, reader front = .error e

/-- A cut is in the first part, or the first part is whole and the cut is behind it. -/
theorem cut_cases {front missing first second : List UInt8}
    (cut : front ++ missing = first ++ second) :
    (∃ rest, rest ≠ [] ∧ front ++ rest = first) ∨
      ∃ more, front = first ++ more ∧ more ++ missing = second := by
  rcases List.append_eq_append_iff.mp cut with ⟨rest, whole, after⟩ | ⟨more, whole, after⟩
  · cases rest with
    | nil => exact .inr ⟨[], by simpa using whole.symm, by simpa using after⟩
    | cons b rest => exact .inl ⟨b :: rest, List.cons_ne_nil b rest, whole.symm⟩
  · exact .inr ⟨more, whole, after.symm⟩

namespace Needs

theorem of_fails {reader : Reader α} {other : Reader β} {bytes : List UInt8}
    (needs : Needs reader bytes)
    (fails : ∀ input e, reader input = .error e → ∃ e, other input = .error e) :
    Needs other bytes := by
  intro front missing cut proper
  obtain ⟨e, failed⟩ := needs front missing cut proper
  exact fails front e failed

theorem map {reader : Reader α} {bytes : List UInt8} (needs : Needs reader bytes)
    (f : α × List UInt8 → β × List UInt8) : Needs (fun input => (reader input).map f) bytes := by
  apply needs.of_fails
  intro input e failed
  exact ⟨e, by simp only [failed, Except.map]⟩

/-- Two readers one behind the other. -/
theorem bind {reader : Reader α} {next : α → Reader β} {first second : List UInt8} {a : α}
    (needs : Needs reader first) (reads : Reads reader first a) (later : Needs (next a) second) :
    Needs (fun input => reader input >>= fun read => next read.1 read.2) (first ++ second) := by
  intro front missing cut proper
  rcases cut_cases cut with ⟨rest, given, whole⟩ | ⟨more, rfl, whole⟩
  · obtain ⟨e, failed⟩ := needs front rest whole given
    exact ⟨e, by simp only [failed]; rfl⟩
  · obtain ⟨e, failed⟩ := later more missing whole proper
    exact ⟨e, by simp only [reads more]; exact failed⟩

end Needs

theorem varintUpTo_needs {n : Nat} {bytes : List UInt8} (groups : Groups n bytes) (size : Nat) :
    Needs (varintUpTo size) bytes := by
  have nothing (size : Nat) : varintUpTo size [] = Reader.fail .varint := by cases size <;> rfl
  induction groups generalizing size with
  | last b low =>
    intro front missing cut proper
    cases front with
    | nil => exact ⟨_, nothing size⟩
    | cons c front =>
      have empty : front ++ missing = [] := (List.cons.inj cut).2
      exact absurd (List.append_eq_nil_iff.mp empty).2 proper
  | @more b high bytes above groups ih =>
    intro front missing cut proper
    cases front with
    | nil => exact ⟨_, nothing size⟩
    | cons c front =>
      obtain ⟨rfl, rest⟩ := List.cons.inj cut
      cases size with
      | zero => exact ⟨_, rfl⟩
      | succ size =>
        obtain ⟨e, failed⟩ := ih size front missing rest proper
        have high_bit : ¬c < 0x80 := UInt8.not_lt.mpr above
        refine ⟨e, ?_⟩
        simp only [varintUpTo, if_neg high_bit, failed]
        rfl

theorem Varint.needs {n : Nat} {bytes : List UInt8} (written : Varint n bytes) :
    Needs varint bytes :=
  varintUpTo_needs written.groups 10

theorem Key.Bytes.needs {entry : Key} {bytes : List UInt8} (written : entry.Bytes bytes) :
    Needs key bytes := by
  apply written.spelled.needs.of_fails
  intro input e failed
  refine ⟨e, ?_⟩
  simp only [key, failed]
  rfl

theorem Int32Bytes.needs {n : Int32} {bytes : List UInt8} (written : Int32Bytes n bytes) :
    Needs int32 bytes := by
  obtain ⟨value, written, _⟩ := written
  exact written.needs.map _

theorem take_needs (bytes : List UInt8) : Needs (take bytes.length) bytes := by
  rintro front missing rfl proper
  have short : front.length < (front ++ missing).length := by
    have := List.length_pos_of_ne_nil proper
    simp only [List.length_append]
    omega
  exact ⟨_, if_pos short⟩

theorem Frame.needs {body bytes : List UInt8} (frame : Frame body bytes) :
    Needs delimited bytes := by
  obtain ⟨length, written, rfl⟩ := frame
  exact written.needs.bind written.reads (take_needs body)

/-- The length of a frame is compared with what is left before anything in the frame is read. -/
theorem Frame.needs_framed {body bytes : List UInt8} (frame : Frame body bytes)
    (step : σ → Reader σ) (s : σ) : Needs (framed step s) bytes := by
  apply frame.needs.of_fails
  intro input e failed
  simp only [delimited, framed] at failed ⊢
  cases counted : varint input with
  | error e => exact ⟨e, rfl⟩
  | ok read =>
    simp only [counted, bind, Except.bind, take] at failed ⊢
    split at failed
    · rename_i short
      exact ⟨_, if_pos short⟩
    · cases failed

theorem Group.needs {entry : Key → List UInt8 → Prop} {skipEntry : Key → Reader Unit}
    (skips : ∀ field content, entry field content → Reads (skipEntry field) content ())
    (wants : ∀ field content, entry field content → Needs (skipEntry field) content)
    (started : ∀ field content, entry field content → field.wireType ≠ .groupEnd) {tag : Nat}
    {bytes : List UInt8} (group : Group entry tag bytes) :
    Needs (skipGroup skipEntry tag) bytes := by
  have unnamed (input : List UInt8) (e : WireError) (failed : key input = .error e) :
      ∃ e, skipGroup skipEntry tag input = .error e := ⟨e, by rw [skipGroup, failed]⟩
  induction group with
  | close ending => exact ending.needs.of_fails unnamed
  | @more field name content bytes written allowed group ih =>
    intro front missing cut proper
    rw [List.append_assoc] at cut
    rcases cut_cases cut with ⟨rest, given, whole⟩ | ⟨more, rfl, inside⟩
    · exact written.needs.of_fails unnamed front rest whole given
    rcases cut_cases inside with ⟨rest, given, whole⟩ | ⟨more, rfl, behind⟩
    · obtain ⟨e, failed⟩ := wants field content allowed more rest whole given
      refine ⟨e, ?_⟩
      rw [skipGroup, written.reads more]
      simp only [if_neg (started field content allowed), failed]
    · obtain ⟨e, failed⟩ := ih more missing behind proper
      have long := List.length_pos_of_ne_nil written.spelled.ne_nil
      have shorter : more.length < (name ++ (content ++ more)).length := by
        simp only [List.length_append]
        omega
      refine ⟨e, ?_⟩
      rw [skipGroup, written.reads (content ++ more)]
      simp only [if_neg (started field content allowed), skips field content allowed more,
        if_pos shorter, failed]

theorem Content.needs {depth : Nat} {entry : Key} {content : List UInt8}
    (allowed : Content depth entry content) : Needs (skip depth entry) content := by
  induction depth generalizing entry content with
  | zero => exact allowed.elim
  | succ depth ih =>
    intro front missing cut proper
    unfold Content at allowed
    unfold skip
    cases wireType : entry.wireType <;> simp only [wireType] at allowed ⊢
    case varint =>
      obtain ⟨n, written⟩ := allowed
      exact written.needs.map _ front missing cut proper
    case bits64 => exact (allowed ▸ take_needs content).map _ front missing cut proper
    case delimited =>
      obtain ⟨body, frame⟩ := allowed
      exact frame.needs.map _ front missing cut proper
    case groupStart =>
      exact allowed.needs (fun _ _ inner => inner.skipped) (fun _ _ inner => ih inner)
        (fun _ _ inner => inner.started) front missing cut proper
    case bits32 => exact (allowed ▸ take_needs content).map _ front missing cut proper

theorem exists_of_forall₂ {γ δ : Type} {r : γ → δ → Prop} {as : List γ} {bs : List δ} {b : δ}
    (related : List.Forall₂ r as bs) (member : b ∈ bs) : ∃ a ∈ as, r a b := by
  induction related with
  | nil => cases member
  | cons first _ ih =>
    cases member with
    | head => exact ⟨_, List.mem_cons_self, first⟩
    | tail _ later =>
      obtain ⟨a, there, related⟩ := ih later
      exact ⟨a, List.mem_cons_of_mem _ there, related⟩

theorem Chunk.needs {ns : List Int32} {item : Item} (chunk : Chunk ns item) (tag depth : Nat)
    (name : String) (slot : Slot σ (List Int32)) (ms : List Int32) :
    Needs ((Field.ints tag name slot).merge depth item.key.wireType ms) item.content := by
  rcases chunk with ⟨n, rfl, wireType, number⟩ | ⟨wireType, body, packed, frame⟩
  · intro front missing cut proper
    simp only [Field.ints, wireType, reduceCtorEq, if_false, expect_self, bind, Except.bind]
    exact number.needs.map _ front missing cut proper
  · intro front missing cut proper
    simp only [Field.ints, wireType, if_true]
    exact frame.needs_framed _ ms front missing cut proper

theorem Frame.needs_content {body bytes : List UInt8} (frame : Frame body bytes)
    (schema : Schema σ) (depth : Nat) (m : σ) :
    Needs (schema.readContent depth .delimited m) bytes := by
  intro front missing cut proper
  simp only [Schema.readContent, expect_self, bind, Except.bind]
  cases depth with
  | zero => exact ⟨_, rfl⟩
  | succ depth => exact frame.needs_framed _ m front missing cut proper

section Carries

variable {part : {τ : Type} → Schema τ → τ → List UInt8 → Prop}

/-- Each item of a field is needed as a whole, whatever the field's value is so far. -/
theorem Carries.needs {field : Field σ} {a : field.Value} {items : List Item} {item : Item}
    (carries : Carries part field a items) (member : item ∈ items) (depth : Nat)
    (b : field.Value) : Needs (field.merge depth item.key.wireType b) item.content := by
  cases carries with
  | int written =>
    obtain ⟨n, _, wireType, number⟩ := exists_of_forall₂ written member
    apply number.needs.of_fails
    intro input e failed
    simp only [Field.int, wireType, expect_self, bind, Except.bind, failed]
    exact ⟨e, rfl⟩
  | @ints tag name slot _ _ written =>
    obtain ⟨ns, _, chunk⟩ := exists_of_forall₂ written member
    exact chunk.needs tag depth name slot b
  | text written =>
    obtain ⟨t, _, wireType, frame⟩ := exists_of_forall₂ written member
    apply frame.needs.of_fails
    intro input e failed
    simp only [Field.text, wireType, expect_self, bind, Except.bind, failed]
    exact ⟨e, rfl⟩
  | absent => cases member
  | @message _ tag name schema slot m _ written =>
    obtain rfl := List.mem_singleton.mp member
    obtain ⟨wireType, body, _, frame⟩ := written
    apply (frame.needs_content schema depth (Option.getD b schema.empty)).of_fails
    intro input e failed
    simp only [Field.message, wireType, bind, Except.bind, failed]
    exact ⟨e, rfl⟩
  | @messages _ tag name schema slot ms _ written =>
    obtain ⟨m, _, wireType, body, _, frame⟩ := exists_of_forall₂ written member
    apply (frame.needs_content schema depth schema.empty).of_fails
    intro input e failed
    simp only [Field.messages, wireType, bind, Except.bind, failed]
    exact ⟨e, rfl⟩

/-- The first items of a field carry a value as well. -/
theorem Carries.front {field : Field σ} {a : field.Value} {front back : List Item}
    (carries : Carries part field a (front ++ back)) : ∃ b, Carries part field b front := by
  generalize whole : front ++ back = items at carries
  cases carries with
  | int written =>
    subst whole
    exact ⟨_, .int (List.forall₂_take_append _ _ _ written)⟩
  | ints written =>
    subst whole
    exact ⟨_, .ints (List.forall₂_take_append _ _ _ written)⟩
  | text written =>
    subst whole
    exact ⟨_, .text (List.forall₂_take_append _ _ _ written)⟩
  | absent =>
    obtain ⟨rfl, _⟩ := List.append_eq_nil_iff.mp whole
    exact ⟨none, .absent⟩
  | message written =>
    cases front with
    | nil => exact ⟨none, .absent⟩
    | cons item front =>
      obtain ⟨rfl, rest⟩ := List.cons.inj whole
      obtain ⟨rfl, _⟩ := List.append_eq_nil_iff.mp rest
      exact ⟨_, .message written⟩
  | messages written =>
    subst whole
    exact ⟨_, .messages (List.forall₂_take_append _ _ _ written)⟩

end Carries

/-- There is a message with any values of the fields. -/
theorem Schema.exists_message (schema : Schema σ) {holds : (field : Field σ) → field.Value → Prop}
    (each : ∀ field ∈ schema.fields, ∃ value, holds field value) :
    ∃ m, ∀ field ∈ schema.fields, holds field (field.slot.get m) := by
  have some_fields : ∀ chosen : List (Field σ), (chosen.map (·.tag)).Nodup →
      (∀ field ∈ chosen, field ∈ schema.fields) →
        ∃ m, ∀ field ∈ chosen, holds field (field.slot.get m) := by
    intro chosen unique known
    induction chosen with
    | nil => exact ⟨schema.empty, List.forall_mem_nil _⟩
    | cons field chosen ih =>
      rw [List.map_cons, List.nodup_cons] at unique
      rw [List.forall_mem_cons] at known
      obtain ⟨m, later⟩ := ih unique.2 known.2
      obtain ⟨value, own⟩ := each field known.1
      refine ⟨field.slot.set value m, List.forall_mem_cons.mpr ⟨?_, fun other member => ?_⟩⟩
      · rw [schema.kept field known.1]
        exact own
      · have apart : field.tag ≠ other.tag := fun same =>
          unique.1 (same ▸ List.mem_map_of_mem member)
        rw [schema.apart field known.1 other (known.2 other member) apart]
        exact later other member
  exact some_fields schema.fields schema.unique fun _ member => member

/-- The key and the content of an item. -/
def Item.Spells (item : Item) (bytes : List UInt8) : Prop :=
  ∃ name, item.key.Bytes name ∧ bytes = name ++ item.content

theorem spelled_iff {items : List Item} {bytes : List UInt8} : Spelled items bytes ↔
    ∃ fields, List.Forall₂ Item.Spells items fields ∧ bytes = fields.flatten := by
  constructor
  · intro spelled
    induction spelled with
    | nil => exact ⟨[], .nil, rfl⟩
    | @cons item items name rest written _ ih =>
      obtain ⟨fields, each, rfl⟩ := ih
      exact ⟨(name ++ item.content) :: fields, .cons ⟨name, written, rfl⟩ each, rfl⟩
  · rintro ⟨fields, each, rfl⟩
    induction each with
    | nil => exact .nil
    | cons first _ ih =>
      obtain ⟨name, written, rfl⟩ := first
      exact .cons written ih

section Itemized

variable {part : {τ : Type} → Schema τ → τ → List UInt8 → Prop} {depth : Nat} {schema : Schema σ}
  {m : σ} {items : List Item} (itemized : Itemized part depth schema m items)

include itemized

theorem Itemized.needs {item : Item} (member : item ∈ items) {bytes : List UInt8}
    (spells : item.Spells bytes) (s : σ) : Needs (schema.readField depth s) bytes := by
  obtain ⟨name, written, rfl⟩ := spells
  intro front missing cut proper
  rcases cut_cases cut with ⟨rest, given, whole⟩ | ⟨more, rfl, whole⟩
  · obtain ⟨e, failed⟩ := written.needs front rest whole given
    exact ⟨e, by simp only [Schema.readField, failed]; rfl⟩
  simp only [Schema.readField, written.reads more, bind, Except.bind]
  cases found : schema.fields.find? (·.tag = item.key.tag) with
  | none =>
    have content := itemized.undeclared item member (by simpa using found)
    obtain ⟨e, failed⟩ := content.needs more missing whole proper
    exact ⟨e, by simp only [failed, Except.map]⟩
  | some own =>
    have own_tag : own.tag = item.key.tag := by simpa using List.find?_some found
    have carries := itemized.declared own (List.mem_of_find?_eq_some found)
    obtain ⟨e, failed⟩ := carries.needs (List.mem_filter.mpr ⟨member, by simpa using own_tag⟩) depth
      (own.slot.get s) more missing whole proper
    exact ⟨_, by simp only [Field.read, failed, bind, Except.bind, Except.mapError]; rfl⟩

theorem Itemized.take (n : Nat) : ∃ first, Itemized part depth schema first (items.take n) := by
  have each : ∀ field ∈ schema.fields, ∃ value, Carries part field value
      ((items.take n).filter fun item => field.tag = item.key.tag) := by
    intro field member
    have carries := itemized.declared field member
    rw [← List.take_append_drop n items, List.filter_append] at carries
    exact carries.front
  obtain ⟨first, declared⟩ := schema.exists_message each
  exact ⟨first, declared, fun item member => itemized.undeclared item (List.mem_of_mem_take member)⟩

end Itemized

/-- Where a cut in a row of fields is: behind some whole ones, and perhaps within the next one. -/
theorem flatten_cut {front missing : List UInt8} {fields : List (List UInt8)}
    (cut : front ++ missing = fields.flatten) (proper : missing ≠ []) :
    ∃ n field piece rest, fields[n]? = some field ∧ front = (fields.take n).flatten ++ piece ∧
      piece ++ rest = field ∧ rest ≠ [] := by
  induction fields generalizing front with
  | nil => exact absurd (List.append_eq_nil_iff.mp cut).2 proper
  | cons first fields ih =>
    rcases cut_cases cut with ⟨rest, given, whole⟩ | ⟨more, rfl, whole⟩
    · exact ⟨0, first, front, rest, rfl, rfl, whole, given⟩
    · obtain ⟨n, field, piece, rest, there, rfl, whole, given⟩ := ih whole
      exact ⟨n + 1, field, piece, rest, there, by simp, whole, given⟩

/-- A payload as it is written: the string table in a frame, and the fields of the message. -/
structure Parts (schema : Schema σ) (types : StringTableTypes) (m : σ) (items : List Item)
    (table : List UInt8) (fields : List (List UInt8)) : Prop where
  table : ∃ body, Encodes 100 StringTableTypes.schema types body ∧ Frame body table
  itemized : Itemized (Encodes 100) 100 schema m items
  spelled : List.Forall₂ Item.Spells items fields

section Parts

variable {schema : Schema σ} {types : StringTableTypes} {m : σ} {items : List Item}
  {table : List UInt8} {fields : List (List UInt8)}

theorem encoded_iff (bytes : List UInt8) : Encoded schema types m bytes ↔
    ∃ items table fields, Parts schema types m items table fields ∧
      bytes = table ++ fields.flatten := by
  constructor
  · rintro ⟨body, table, content, encodes, frame, ⟨items, itemized, spelled⟩, rfl⟩
    obtain ⟨fields, each, rfl⟩ := spelled_iff.mp spelled
    exact ⟨items, table, fields, ⟨⟨body, encodes, frame⟩, itemized, each⟩, rfl⟩
  · rintro ⟨items, table, fields, ⟨⟨body, encodes, frame⟩, itemized, each⟩, rfl⟩
    exact ⟨body, table, fields.flatten, encodes, frame,
      ⟨items, itemized, spelled_iff.mpr ⟨fields, each, rfl⟩⟩, rfl⟩

variable (parts : Parts schema types m items table fields)

include parts

/-- The first fields are a payload of their own. -/
theorem Parts.take (n : Nat) :
    ∃ first, Parts schema types first (items.take n) table (fields.take n) := by
  obtain ⟨first, itemized⟩ := parts.itemized.take n
  exact ⟨first, parts.table, itemized, List.forall₂_take n parts.spelled⟩

theorem Parts.encoded : Encoded schema types m (table ++ fields.flatten) :=
  (encoded_iff _).mpr ⟨items, table, fields, parts, rfl⟩

theorem read_within_table {cut rest : List UInt8} (whole : cut ++ rest = table)
    (given : rest ≠ []) : ∃ e, read schema cut = .error e := by
  obtain ⟨body, _, frame⟩ := parts.table
  obtain ⟨e, failed⟩ := frame.needs_content StringTableTypes.schema 100
    StringTableTypes.schema.empty cut rest whole given
  exact ⟨e, by simp only [read, failed]; rfl⟩

/-- The fields before the cut are read, and then the one that is not whole fails. -/
theorem read_within_field {n : Nat} {field piece rest : List UInt8}
    (there : fields[n]? = some field) (whole : piece ++ rest = field) (given : rest ≠ [])
    (begun : piece ≠ []) :
    ∃ e, read schema (table ++ ((fields.take n).flatten ++ piece)) = .error e := by
  obtain ⟨first, before⟩ := parts.take n
  obtain ⟨body, encodes, frame⟩ := parts.table
  have steps := before.itemized.steps (fun _ _ _ _ content frame => content.readContent frame)
    (spelled_iff.mpr ⟨_, before.spelled, rfl⟩)
  obtain ⟨item, member, spells⟩ := exists_of_forall₂ parts.spelled (List.mem_of_getElem? there)
  obtain ⟨e, failed⟩ := parts.itemized.needs member spells first piece rest whole given
  have stopped : repeatAbove 0 (schema.readField 100) first piece = .error e := by
    rw [repeatAbove, if_pos (List.length_pos_of_ne_nil begun), failed]
  refine ⟨e, ?_⟩
  simp only [read, encodes.readContent frame _, bind, Except.bind, Schema.readAll,
    steps.repeatAbove_append piece (Nat.zero_le _), stopped, Except.map]

end Parts

/-- A payload without its last bytes is malformed, unless it ends behind the string table or behind
a field: then it is read as that table and the message of the fields that are left. -/
theorem read_cut (schema : Schema σ) (types : StringTableTypes) (m : σ) (items : List Item)
    (table : List UInt8) (fields : List (List UInt8))
    (parts : Parts schema types m items table fields) (cut missing : List UInt8)
    (whole : cut ++ missing = table ++ fields.flatten) (shorter : missing ≠ []) :
    (∀ n, cut = table ++ (fields.take n).flatten → ∃ left,
      Parts schema types left (items.take n) table (fields.take n) ∧
        read schema cut = .ok (types, left)) ∧
    ((∀ n, cut ≠ table ++ (fields.take n).flatten) → ∃ e, read schema cut = .error e ∧
      ∀ h : Header, bytesOf h.data1 = cut → h.content schema = .error (.malformed e)) := by
  constructor
  · rintro n rfl
    obtain ⟨left, before⟩ := parts.take n
    exact ⟨left, before, before.encoded.read⟩
  · intro between
    have failed : ∃ e, read schema cut = .error e := by
      rcases cut_cases whole with ⟨rest, given, within⟩ | ⟨more, rfl, after⟩
      · exact read_within_table parts within given
      · obtain ⟨n, field, piece, rest, there, rfl, within, given⟩ := flatten_cut after shorter
        refine read_within_field parts there within given ?_
        rintro rfl
        exact between n (by rw [List.append_nil])
    obtain ⟨e, failed⟩ := failed
    refine ⟨e, failed, ?_⟩
    rintro h rfl
    simp only [Header.content, failed]
    rfl

/-- A package with a function and a module name, each in a field of its own. -/
theorem parts_package : Parts Package.schema {}
    { functions := [{ name := some 1 }], moduleName := some 0 }
    [⟨⟨3, .delimited⟩, [0x02, 0x10, 0x01]⟩, ⟨⟨101, .varint⟩, [0x00]⟩] [0x00]
    [[0x1A, 0x02, 0x10, 0x01], [0xA8, 0x06, 0x00]] := by
  have first : Key.Bytes ⟨3, .delimited⟩ [0x1A] :=
    ⟨by decide, by decide, varint_one 0x1A (by decide)⟩
  have second : Key.Bytes ⟨101, .varint⟩ [0xA8, 0x06] :=
    ⟨by decide, by decide, .more 0xA8 (by decide) (.last 0x06 (by decide)), by decide, by decide⟩
  have name : Key.Bytes ⟨2, .varint⟩ [0x10] :=
    ⟨by decide, by decide, varint_one 0x10 (by decide)⟩
  have one : Varint 1 [0x01] := varint_one 0x01 (by decide)
  have zero : Varint 0 [0x00] := varint_one 0x00 (by decide)
  have table : Encodes 100 StringTableTypes.schema {} [] := by
    refine ⟨[], ⟨?_, List.forall_mem_nil _⟩, .nil⟩
    exact List.forall_mem_cons.mpr ⟨.messages .nil,
      List.forall_mem_cons.mpr ⟨.ints .nil, List.forall_mem_nil _⟩⟩
  have function : Encodes 100 Function.schema { name := some 1 } [0x10, 0x01] := by
    refine ⟨[⟨⟨2, .varint⟩, [0x01]⟩], ⟨?_, ?_⟩,
      @Spelled.cons ⟨⟨2, .varint⟩, [0x01]⟩ _ _ _ name .nil⟩
    · have names : List.Forall₂ (fun n (item : Item) => item.Is .varint (Int32Bytes n)) [1]
          [⟨⟨2, .varint⟩, [0x01]⟩] := .cons ⟨rfl, 1, one, rfl⟩ .nil
      simp only [Function.schema, List.forall_mem_cons]
      exact ⟨.int names, .absent, .absent, .messages .nil, .int .nil, .int .nil, .absent, .absent,
        List.forall_mem_nil _⟩
    · refine List.forall_mem_cons.mpr ⟨fun other => ?_, List.forall_mem_nil _⟩
      exact absurd rfl (other _ (.head _))
  refine ⟨⟨[], table, [0x00], zero, rfl⟩, ⟨?_, ?_⟩,
    .cons ⟨[0x1A], first, rfl⟩ (.cons ⟨[0xA8, 0x06], second, rfl⟩ .nil)⟩
  · have functions : List.Forall₂ (fun (m : Function) (item : Item) => item.Is .delimited
        fun bytes => ∃ body, Encodes 100 Function.schema m body ∧ Frame body bytes)
        [{ name := some 1 }] [⟨⟨3, .delimited⟩, [0x02, 0x10, 0x01]⟩] :=
      .cons ⟨rfl, [0x10, 0x01], function, [0x02], varint_one 0x02 (by decide), rfl⟩ .nil
    have names : List.Forall₂ (fun n (item : Item) => item.Is .varint (Int32Bytes n)) [0]
        [⟨⟨101, .varint⟩, [0x00]⟩] := .cons ⟨rfl, 0, zero, rfl⟩ .nil
    simp only [Package.schema, List.forall_mem_cons]
    exact ⟨.messages functions, .messages .nil, .messages .nil, .absent, .int names,
      List.forall_mem_nil _⟩
  · refine List.forall_mem_cons.mpr ⟨fun other => ?_, List.forall_mem_cons.mpr
      ⟨fun other => ?_, List.forall_mem_nil _⟩⟩
    · exact absurd rfl (other _ (.head _))
    · exact absurd rfl (other _ (.tail _ (.tail _ (.tail _ (.tail _ (.head _))))))

/-- The package is cut behind its function, and within the name of the function. -/
theorem read_cut_package :
    (∃ left, read Package.schema [0x00, 0x1A, 0x02, 0x10, 0x01] = .ok ({}, left)) ∧
      ∃ e, read Package.schema [0x00, 0x1A, 0x02, 0x10] = .error e := by
  constructor
  · obtain ⟨left, _, reads⟩ := (read_cut Package.schema {} _ _ _ _ parts_package
      [0x00, 0x1A, 0x02, 0x10, 0x01] [0xA8, 0x06, 0x00] rfl (by decide)).1 1 rfl
    exact ⟨left, reads⟩
  · have within (n : Nat) : [0x00, 0x1A, 0x02, 0x10] ≠ [0x00] ++
        (([[0x1A, 0x02, 0x10, 0x01], [0xA8, 0x06, 0x00]] : List (List UInt8)).take n).flatten := by
      rcases n with _ | _ | _ | n <;> simp
    obtain ⟨e, failed, _⟩ := (read_cut Package.schema {} _ _ _ _ parts_package
      [0x00, 0x1A, 0x02, 0x10] [0x01, 0xA8, 0x06, 0x00] rfl (by decide)).2 within
    exact ⟨e, failed⟩

end SmaliReport.Payload
