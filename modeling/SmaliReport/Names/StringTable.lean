import SmaliReport.Payload.Schema

/-!
The string table of a header. Entry `i` is the `i`-th stored text, or what its record puts in its
place, changed as the record says. Records cover the entries in order, each as many as its range.
-/

namespace SmaliReport

open Payload (Record StringTableTypes)

/-- Why a header has no description. -/
inductive DecodeError where
  | malformed (e : Payload.WireError)
  | stringTableRange (covered available : Nat)
  | unsupportedVersion (version : List Int32)
  | missingField (field : String)
  | nameIndex (index : Int32)
  | typeIndex (index : Int32)
  deriving DecidableEq

def DecodeError.message : DecodeError → Text
  | .malformed e =>
    "malformed metadata message: failed to decode Protobuf message: ".toList ++ e.message
  | .stringTableRange covered available =>
    s!"string table covers {covered} strings but d2 holds {available}".toList
  | .unsupportedVersion version =>
    "unsupported metadata version [".toList ++
      Text.joined ", " (version.map fun n => Text.ofInt n.toInt) ++ "]".toList
  | .missingField field => s!"required field {field} is missing".toList
  | .nameIndex index =>
    "string index ".toList ++ Text.ofInt index.toInt ++ " is out of range".toList
  | .typeIndex index =>
    "type index ".toList ++ Text.ofInt index.toInt ++ " is out of range".toList

structure StringTable where
  texts : List Text
  /-- One record an entry, as far as records reach. -/
  records : List Record
  localNames : List Int32

namespace StringTable

def predefined : List String :=
  ["kotlin/Any", "kotlin/Nothing", "kotlin/Unit", "kotlin/Throwable", "kotlin/Number",
   "kotlin/Byte", "kotlin/Double", "kotlin/Float", "kotlin/Int", "kotlin/Long", "kotlin/Short",
   "kotlin/Boolean", "kotlin/Char", "kotlin/CharSequence", "kotlin/String", "kotlin/Comparable",
   "kotlin/Enum", "kotlin/Array", "kotlin/ByteArray", "kotlin/DoubleArray", "kotlin/FloatArray",
   "kotlin/IntArray", "kotlin/LongArray", "kotlin/ShortArray", "kotlin/BooleanArray",
   "kotlin/CharArray", "kotlin/Cloneable", "kotlin/Annotation", "kotlin/collections/Iterable",
   "kotlin/collections/MutableIterable", "kotlin/collections/Collection",
   "kotlin/collections/MutableCollection", "kotlin/collections/List",
   "kotlin/collections/MutableList", "kotlin/collections/Set", "kotlin/collections/MutableSet",
   "kotlin/collections/Map", "kotlin/collections/MutableMap", "kotlin/collections/Map.Entry",
   "kotlin/collections/MutableMap.MutableEntry", "kotlin/collections/Iterator",
   "kotlin/collections/MutableIterator", "kotlin/collections/ListIterator",
   "kotlin/collections/MutableListIterator"]

/-- A negative number is no index. -/
def index? (n : Int32) : Option Nat := if 0 ≤ n.toInt then some n.toInt.toNat else none

/-- How many entries a record covers: one unless it says otherwise. -/
def coverage (r : Record) : Nat := (r.range.getD 1).toInt.toNat

/-- The records may cover fewer entries than there are texts, but not more. -/
def of (types : StringTableTypes) (texts : List Text) : Except DecodeError StringTable :=
  let covered := types.records.foldr (coverage · + ·) 0
  if texts.length < covered then .error (.stringTableRange covered texts.length)
  else .ok ⟨texts, types.records.flatMap fun r => .replicate (coverage r) r, types.localNames⟩

/-- The text a record starts from, if it names one. -/
def source? (r : Record) : Option Text :=
  r.string <|> do
    let i ← r.predefinedIndex >>= index?
    (predefined[i]?).map String.toList

/-- The characters from `start` up to `stop`; all of them if these are no bounds of the text. -/
def substring (bounds : List Int32) (t : Text) : Text :=
  match bounds with
  | start :: stop :: _ =>
    match index? start, index? stop with
    | some start, some stop =>
      if start ≤ stop ∧ stop ≤ t.length then (t.take stop).drop start else t
    | _, _ => t
  | _ => t

def scalar? (code : Int32) : Option Char := do
  let n ← index? code
  if n.isValidChar then some (Char.ofNat n) else none

/-- The first code is replaced by the second if both are scalars. -/
def replacement (codes : List Int32) (t : Text) : Text :=
  match codes with
  | old :: new :: _ =>
    match scalar? old, scalar? new with
    | some old, some new => Text.swap old new t
    | _, _ => t
  | _ => t

/-- Operation 1 turns an internal class name into a class id, operation 2 a descriptor. -/
def operate (operation : Option Int32) (t : Text) : Text :=
  if operation = some 1 then Text.swap '$' '.' t
  else if operation = some 2 then
    Text.swap '$' '.' (if 2 ≤ t.length then (t.drop 1).dropLast else t)
  else t

def transform (r : Record) (t : Text) : Text :=
  operate r.operation (replacement r.replaceChar (substring r.substringIndex t))

/-- The entry at an index. -/
def string (table : StringTable) (index : Int32) : Except DecodeError Text :=
  match index? index with
  | none => .error (.nameIndex index)
  | some i =>
    let record := table.records[i]?
    match (record >>= source?) <|> table.texts[i]? with
    | none => .error (.nameIndex index)
    | some t => .ok ((record.map (transform · t)).getD t)

/-- The entry as the name of a class; a local class has a leading dot. -/
def className (table : StringTable) (index : Int32) : Except DecodeError Text := do
  let name ← table.string index
  .ok (if index ∈ table.localNames then '.' :: name else name)

end StringTable

end SmaliReport
