import Mathlib.Algebra.Group.Int.Defs
import Mathlib.Algebra.Group.Nat.Defs
import Mathlib.Data.List.Forall2
import SmaliReport.Payload.Schema
import SmaliReport.Text.Utf8

/-!
What counts as an encoding of a message, said without the readers. A message is written as a row
of items, each a key and its content. The items of one declared field, in their order, spell its
value; how items of different fields stand to each other is open, and items of undeclared fields
may stand anywhere. `depth` bounds how deep messages and groups are nested.
-/

namespace SmaliReport.Payload

variable {σ : Type}

/-- Groups of seven bits, low groups first; all but the last have the high bit set. -/
inductive Groups : Nat → List UInt8 → Prop
  | last (b : UInt8) : b < 0x80 → Groups b.toNat [b]
  | more (b : UInt8) {high : Nat} {bytes : List UInt8} :
      0x80 ≤ b → Groups high bytes → Groups (b.toNat - 0x80 + 0x80 * high) (b :: bytes)

/-- A number in up to ten groups, however many of them are zeros at the end. -/
structure Varint (n : Nat) (bytes : List UInt8) : Prop where
  groups : Groups n bytes
  short : bytes.length ≤ 10
  small : n < 2 ^ 64

def WireType.number : WireType → Nat
  | .varint => 0
  | .bits64 => 1
  | .delimited => 2
  | .groupStart => 3
  | .groupEnd => 4
  | .bits32 => 5

structure Key.Bytes (entry : Key) (bytes : List UInt8) : Prop where
  tagged : 0 < entry.tag
  narrow : 8 * entry.tag + entry.wireType.number ≤ 0xFFFFFFFF
  spelled : Varint (8 * entry.tag + entry.wireType.number) bytes

/-- The length of the body and the body. -/
def Frame (body bytes : List UInt8) : Prop :=
  ∃ length, Varint body.length length ∧ bytes = length ++ body

/-- The entries of a group up to and with the key that ends it. -/
inductive Group (entry : Key → List UInt8 → Prop) (tag : Nat) : List UInt8 → Prop
  | close {ending : List UInt8} : Key.Bytes ⟨tag, .groupEnd⟩ ending → Group entry tag ending
  | more {field : Key} {name content rest : List UInt8} :
      field.Bytes name → entry field content → Group entry tag rest →
        Group entry tag (name ++ content ++ rest)

/-- Any well-formed content of a field, groups nested less than `depth` deep. -/
def Content : (depth : Nat) → Key → List UInt8 → Prop
  | 0, _, _ => False
  | depth + 1, entry, bytes =>
    match entry.wireType with
    | .varint => ∃ n, Varint n bytes
    | .bits64 => bytes.length = 8
    | .delimited => ∃ body, Frame body bytes
    | .groupStart => Group (Content depth) entry.tag bytes
    | .groupEnd => False
    | .bits32 => bytes.length = 4

/-- A varint whose low 32 bits are those of `n`. -/
def Int32Bytes (n : Int32) (bytes : List UInt8) : Prop :=
  ∃ value, Varint value bytes ∧ (value : Int) % 2 ^ 32 = n.toInt % 2 ^ 32

/-- Integers one behind the other. -/
inductive Packed : List Int32 → List UInt8 → Prop
  | nil : Packed [] []
  | cons {n : Int32} {ns : List Int32} {first rest : List UInt8} :
      Int32Bytes n first → Packed ns rest → Packed (n :: ns) (first ++ rest)

/-- One field of a message as it is written. -/
structure Item where
  key : Key
  content : List UInt8

/-- An item whose content has the form `form` under the wire type `wireType`. -/
def Item.Is (item : Item) (wireType : WireType) (form : List UInt8 → Prop) : Prop :=
  item.key.wireType = wireType ∧ form item.content

inductive Spelled : List Item → List UInt8 → Prop
  | nil : Spelled [] []
  | cons {item : Item} {items : List Item} {name rest : List UInt8} :
      item.key.Bytes name → Spelled items rest →
        Spelled (item :: items) (name ++ item.content ++ rest)

def Chunk (ns : List Int32) (item : Item) : Prop :=
  (∃ n, ns = [n] ∧ item.Is .varint (Int32Bytes n)) ∨
    item.Is .delimited fun bytes => ∃ body, Packed ns body ∧ Frame body bytes

/-- The items of one field spell its value. `part` says what bytes a message inside stands for.
Of single integers and texts the last one counts. -/
inductive Carries (part : {τ : Type} → Schema τ → τ → List UInt8 → Prop) :
    (field : Field σ) → field.Value → List Item → Prop
  | int {tag : Nat} {name : String} {slot : Slot σ (Option Int32)} {ns : List Int32}
      {items : List Item} :
      List.Forall₂ (fun n item => item.Is .varint (Int32Bytes n)) ns items →
        Carries part (.int tag name slot) ns.getLast? items
  | ints {tag : Nat} {name : String} {slot : Slot σ (List Int32)} {chunks : List (List Int32)}
      {items : List Item} :
      List.Forall₂ Chunk chunks items → Carries part (.ints tag name slot) chunks.flatten items
  | text {tag : Nat} {name : String} {slot : Slot σ (Option Text)} {texts : List Text}
      {items : List Item} :
      List.Forall₂ (fun t item => item.Is .delimited (Frame (Text.toUtf8 t))) texts items →
        Carries part (.text tag name slot) texts.getLast? items
  | absent {τ : Type} {tag : Nat} {name : String} {schema : Schema τ} {slot : Slot σ (Option τ)} :
      Carries part (.message tag name schema slot) none []
  | message {τ : Type} {tag : Nat} {name : String} {schema : Schema τ} {slot : Slot σ (Option τ)}
      {m : τ} {item : Item} :
      item.Is .delimited (fun bytes => ∃ body, part schema m body ∧ Frame body bytes) →
        Carries part (.message tag name schema slot) (some m) [item]
  | messages {τ : Type} {tag : Nat} {name : String} {schema : Schema τ} {slot : Slot σ (List τ)}
      {ms : List τ} {items : List Item} :
      List.Forall₂ (fun m item =>
        item.Is .delimited fun bytes => ∃ body, part schema m body ∧ Frame body bytes) ms items →
        Carries part (.messages tag name schema slot) ms items

/-- The items of each declared field carry its value, and all others are well-formed. -/
structure Itemized (part : {τ : Type} → Schema τ → τ → List UInt8 → Prop) (depth : Nat)
    (schema : Schema σ) (m : σ) (items : List Item) : Prop where
  declared : ∀ field ∈ schema.fields,
    Carries part field (field.slot.get m) (items.filter fun item => field.tag = item.key.tag)
  undeclared : ∀ item ∈ items, (∀ field ∈ schema.fields, field.tag ≠ item.key.tag) →
    Content depth item.key item.content

/-- The bytes encode the message, with messages nested at most `depth` deep, this one included. -/
def Encodes : (depth : Nat) → {σ : Type} → Schema σ → σ → List UInt8 → Prop
  | 0, _, _, _, _ => False
  | depth + 1, _, schema, m, bytes =>
    ∃ items, Itemized (Encodes depth) depth schema m items ∧ Spelled items bytes

end SmaliReport.Payload
