import SmaliReport.Payload.Wire

/-!
Messages on the wire. A message is read field by field into a value that starts out empty: a
single value given again replaces the earlier one, a single message given again is merged, and
repeated fields append. Fields a message does not declare are skipped. `depth` is how many
messages and groups may still be opened.
-/

namespace SmaliReport.Payload

variable {σ τ α : Type}

/-- The place of a field in its message. -/
structure Slot (σ α : Type) where
  get : σ → α
  set : α → σ → σ

/-- One declared field: its value in a message without it, and `merge`, which adds an occurrence of
the field to the value read so far. -/
structure Field (σ : Type) where
  tag : Nat
  name : String
  Value : Type
  absent : Value
  slot : Slot σ Value
  merge : (depth : Nat) → WireType → Value → Reader Value

/-- Reads an occurrence of the field into the message read so far. -/
def Field.read (field : Field σ) (depth : Nat) (wireType : WireType) (message : σ) : Reader σ :=
  fun input => do
    let (value, rest) ← field.merge depth wireType (field.slot.get message) input
    .ok (field.slot.set value message, rest)

/-- The fields of a message: each tag names one of them, each has a place of its own, and together
they are all there is in a message. -/
structure Schema (σ : Type) where
  name : String
  empty : σ
  fields : List (Field σ)
  unique : (fields.map (·.tag)).Nodup := by decide
  absent : ∀ f ∈ fields, f.slot.get empty = f.absent := by
    simp only [List.forall_mem_cons]
    repeat' apply And.intro
    all_goals first | rfl | simp
  kept : ∀ f ∈ fields, ∀ a s, f.slot.get (f.slot.set a s) = a := by
    simp only [List.forall_mem_cons]
    repeat' apply And.intro
    all_goals first | (intros; rfl) | simp
  apart : ∀ f ∈ fields, ∀ g ∈ fields, f.tag ≠ g.tag →
      ∀ a s, g.slot.get (f.slot.set a s) = g.slot.get s := by
    simp only [List.forall_mem_cons]
    repeat' apply And.intro
    all_goals first | (intros; rfl) | (intro same; exact absurd rfl same) | simp
  complete : ∀ m n, (∀ f ∈ fields, f.slot.get m = f.slot.get n) → m = n := by
    intro m n same
    simp only [List.forall_mem_cons] at same
    cases m
    cases n
    repeat
      obtain ⟨first, same⟩ := same
      cases first
    rfl

/-- Runs `step` while more than `floor` bytes are left. A step that takes nothing is the last. -/
def repeatAbove (floor : Nat) (step : σ → Reader σ) (s : σ) (input : List UInt8) :
    Except WireError (σ × List UInt8) :=
  if floor < input.length then
    match step s input with
    | .error e => .error e
    | .ok (s, rest) =>
      if rest.length < input.length then repeatAbove floor step s rest else .ok (s, rest)
  else .ok (s, input)
termination_by input.length

/-- A length and that many bytes of parts. A part may read past the end, which is found after it. -/
def framed (step : σ → Reader σ) (s : σ) : Reader σ := fun input => do
  let (count, rest) ← varint input
  if rest.length < count then Reader.fail .underflow
  else
    let (s, left) ← repeatAbove (rest.length - count) step s rest
    if left.length = rest.length - count then .ok (s, left) else Reader.fail .lengthExceeded

/-- Takes entries with `skipEntry` up to the key that ends the group `tag`. -/
def skipGroup (skipEntry : Key → Reader Unit) (tag : Nat) (input : List UInt8) :
    Except WireError (Unit × List UInt8) :=
  match key input with
  | .error e => .error e
  | .ok (entry, rest) =>
    if entry.wireType = .groupEnd then
      if entry.tag = tag then .ok ((), rest) else Reader.fail .groupEnd
    else
      match skipEntry entry rest with
      | .error e => .error e
      | .ok ((), rest) =>
        if rest.length < input.length then skipGroup skipEntry tag rest else .ok ((), rest)
termination_by input.length

/-- Takes the content of a field that no message declares. -/
def skip : (depth : Nat) → Key → Reader Unit
  | 0, _, _ => Reader.fail .tooDeep
  | depth + 1, entry, input =>
    match entry.wireType with
    | .varint => (varint input).map fun (_, rest) => ((), rest)
    | .bits64 => (take 8 input).map fun (_, rest) => ((), rest)
    | .delimited => (delimited input).map fun (_, rest) => ((), rest)
    | .groupStart => skipGroup (skip depth) entry.tag input
    | .groupEnd => Reader.fail .groupEnd
    | .bits32 => (take 4 input).map fun (_, rest) => ((), rest)

namespace Schema

/-- One field with its key. -/
def readField (schema : Schema σ) (depth : Nat) (message : σ) : Reader σ := fun input => do
  let (entry, rest) ← key input
  match schema.fields.find? (·.tag = entry.tag) with
  | some field =>
    (field.read depth entry.wireType message rest).mapError (·.within schema.name field.name)
  | none => (skip depth entry rest).map fun (_, rest) => (message, rest)

/-- A message as the content of a field. -/
def readContent (schema : Schema σ) (depth : Nat) (wireType : WireType) (message : σ) :
    Reader σ := fun input => do
  expect .delimited wireType
  match depth with
  | 0 => Reader.fail .tooDeep
  | depth + 1 => framed (schema.readField depth) message input

/-- A message that takes the whole input. -/
def readAll (schema : Schema σ) (depth : Nat) (input : List UInt8) : Except WireError σ :=
  (repeatAbove 0 (schema.readField depth) schema.empty input).map (·.1)

end Schema

/-- The low 32 bits of a varint as a signed number. -/
def int32 : Reader Int32 := fun input =>
  (varint input).map fun (n, rest) => (Int32.ofNat n, rest)

namespace Field

def int (tag : Nat) (name : String) (slot : Slot σ (Option Int32)) : Field σ where
  tag
  name
  Value := Option Int32
  absent := none
  slot
  merge _ wireType _ input := do
    expect .varint wireType
    let (n, rest) ← int32 input
    .ok (some n, rest)

/-- Integers one by one or packed in a frame. -/
def ints (tag : Nat) (name : String) (slot : Slot σ (List Int32)) : Field σ where
  tag
  name
  Value := List Int32
  absent := []
  slot
  merge _ wireType ns input := do
    let append (ns : List Int32) : Reader (List Int32) := fun input =>
      (int32 input).map fun (n, rest) => (ns ++ [n], rest)
    if wireType = .delimited then framed append ns input
    else
      expect .varint wireType
      append ns input

def text (tag : Nat) (name : String) (slot : Slot σ (Option Text)) : Field σ where
  tag
  name
  Value := Option Text
  absent := none
  slot
  merge _ wireType _ input := do
    expect .delimited wireType
    let (bytes, rest) ← delimited input
    match Text.ofUtf8? bytes with
    | none => Reader.fail .notUtf8
    | some t => .ok (some t, rest)

def message (tag : Nat) (name : String) (part : Schema τ) (slot : Slot σ (Option τ)) :
    Field σ where
  tag
  name
  Value := Option τ
  absent := none
  slot
  merge depth wireType m input := do
    let (m, rest) ← part.readContent depth wireType (m.getD part.empty) input
    .ok (some m, rest)

def messages (tag : Nat) (name : String) (part : Schema τ) (slot : Slot σ (List τ)) :
    Field σ where
  tag
  name
  Value := List τ
  absent := []
  slot
  merge depth wireType ms input := do
    let (m, rest) ← part.readContent depth wireType part.empty input
    .ok (ms ++ [m], rest)

end Field

end SmaliReport.Payload
