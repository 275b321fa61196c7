import SmaliReport.Text.Digits
import SmaliReport.Text.Utf8

/-!
The wire format of the payload: base-128 varints, keys that name a field and its wire type, and
contents framed by their wire type or by a length. A reader takes bytes from the front of the
input and returns what is left.
-/

namespace SmaliReport.Payload

inductive WireType where
  | varint | bits64 | delimited | groupStart | groupEnd | bits32
  deriving DecidableEq

def WireType.ofNat? : Nat → Option WireType
  | 0 => some .varint
  | 1 => some .bits64
  | 2 => some .delimited
  | 3 => some .groupStart
  | 4 => some .groupEnd
  | 5 => some .bits32
  | _ => none

def WireType.name : WireType → String
  | .varint => "Varint"
  | .bits64 => "SixtyFourBit"
  | .delimited => "LengthDelimited"
  | .groupStart => "StartGroup"
  | .groupEnd => "EndGroup"
  | .bits32 => "ThirtyTwoBit"

inductive WireFault where
  | varint
  | key (value : Nat)
  | wireType (value : Nat)
  | zeroTag
  | unexpectedWireType (found expected : WireType)
  | underflow
  | lengthExceeded
  | notUtf8
  | groupEnd
  | tooDeep
  deriving DecidableEq

def WireFault.message : WireFault → Text
  | .varint => "invalid varint".toList
  | .key value => "invalid key value: ".toList ++ Text.ofNat value
  | .wireType value => "invalid wire type value: ".toList ++ Text.ofNat value
  | .zeroTag => "invalid tag value: 0".toList
  | .unexpectedWireType found expected =>
    s!"invalid wire type: {found.name} (expected {expected.name})".toList
  | .underflow => "buffer underflow".toList
  | .lengthExceeded => "delimited length exceeded".toList
  | .notUtf8 => "invalid string value: data is not UTF-8 encoded".toList
  | .groupEnd => "unexpected end group tag".toList
  | .tooDeep => "recursion limit reached".toList

/-- A fault and the declared fields around it, from the inside out. -/
structure WireError where
  fault : WireFault
  fields : List (String × String) := []
  deriving DecidableEq

def WireError.message (e : WireError) : Text :=
  e.fields.flatMap (fun (owner, field) => s!"{owner}.{field}: ".toList) ++ e.fault.message

/-- The error as it looks from a field around it. -/
def WireError.within (owner field : String) (e : WireError) : WireError :=
  { e with fields := e.fields ++ [(owner, field)] }

/-- A value read from the front of the input, and the bytes behind it. -/
abbrev Reader (α : Type) := List UInt8 → Except WireError (α × List UInt8)

def Reader.fail {α : Type} (fault : WireFault) : Except WireError α := .error { fault }

/-- A varint of at most `size` bytes, low groups of seven bits first. A tenth byte holds one bit. -/
def varintUpTo (size : Nat) : Reader Nat := fun input =>
  match size, input with
  | size + 1, b :: rest =>
    if b < 0x80 then
      if size = 0 ∧ 2 ≤ b then Reader.fail .varint else .ok (b.toNat, rest)
    else do
      let (high, rest) ← varintUpTo size rest
      .ok (b.toNat - 0x80 + 0x80 * high, rest)
  | _, _ => Reader.fail .varint

def varint : Reader Nat := varintUpTo 10

structure Key where
  tag : Nat
  wireType : WireType
  deriving DecidableEq

def key : Reader Key := fun input => do
  let (value, rest) ← varint input
  if 0xFFFFFFFF < value then Reader.fail (.key value)
  else
    match WireType.ofNat? (value % 8) with
    | none => Reader.fail (.wireType (value % 8))
    | some wireType =>
      if value / 8 = 0 then Reader.fail .zeroTag else .ok (⟨value / 8, wireType⟩, rest)

def take (count : Nat) : Reader (List UInt8) := fun input =>
  if input.length < count then Reader.fail .underflow
  else .ok (input.take count, input.drop count)

def delimited : Reader (List UInt8) := fun input => do
  let (count, rest) ← varint input
  take count rest

def expect (expected found : WireType) : Except WireError Unit :=
  if found = expected then .ok () else Reader.fail (.unexpectedWireType found expected)

end SmaliReport.Payload
