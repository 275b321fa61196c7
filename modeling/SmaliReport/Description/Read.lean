import SmaliReport.Description.Basic
import SmaliReport.Header
import SmaliReport.Names.Descriptor
import SmaliReport.Names.StringTable
import SmaliReport.Payload.Packing

/-!
The description of the class a header belongs to. Names and types are looked up in a scope: the
string table, and a type table. The first lookup that fails is the error of the whole header.
-/

namespace SmaliReport

open Payload (TypeRef TypeTable Parameter StringTableTypes)

structure Scope where
  names : StringTable
  types : List TypeRef

namespace Scope

def of (names : StringTable) (table : Option TypeTable) : Scope :=
  ⟨names, (table.map (·.types)).getD []⟩

/-- A type table of one's own counts, unless it is empty. -/
def within (scope : Scope) (table : Option TypeTable) : Scope :=
  match table with
  | some table => if table.types.isEmpty then scope else { scope with types := table.types }
  | none => scope

def required {α : Type} (field : String) (value : Option α) : Except DecodeError α :=
  match value with
  | some a => .ok a
  | none => .error (.missingField field)

def typeAt (scope : Scope) (id : Int32) : Except DecodeError TypeRef :=
  match (StringTable.index? id).bind fun i => scope.types[i]? with
  | some type => .ok type
  | none => .error (.typeIndex id)

/-- A type in place wins over an index. -/
def type? (scope : Scope) (inline : Option TypeRef) (id : Option Int32) :
    Except DecodeError (Option TypeRef) :=
  match inline, id with
  | some type, _ => .ok (some type)
  | none, some id => (scope.typeAt id).map some
  | none, none => .ok none

/-- The text at an index, or `default` without index. -/
def stringOr (scope : Scope) (default : Text) (index : Option Int32) : Except DecodeError Text :=
  match index with
  | some i => scope.names.string i
  | none => .ok default

/-- Only a class has a descriptor. -/
def descriptor? (scope : Scope) (type : Option TypeRef) : Except DecodeError (Option Text) :=
  match type.bind (·.className) with
  | some name => (scope.names.string name).map fun id => some (Descriptor.ofClassId id)
  | none => .ok none

/-- The descriptors of the types in a row; none from the first type on that has none. -/
def descriptors? (scope : Scope) : List (Option TypeRef) → Except DecodeError (Option Text)
  | [] => .ok (some [])
  | type :: rest => do
    let some desc ← scope.descriptor? type | .ok none
    let some others ← scope.descriptors? rest | .ok none
    .ok (some (desc ++ others))

def methodDescriptor? (scope : Scope) (parameters : List (Option TypeRef))
    (result : Option Text) : Except DecodeError (Option Text) := do
  let some result := result | .ok none
  let some inner ← scope.descriptors? parameters | .ok none
  .ok (some ('(' :: inner ++ ')' :: result))

def classifier (scope : Scope) (type : TypeRef) : Except DecodeError Classifier :=
  match type.className, type.typeParameter, type.typeParameterName, type.typeAliasName with
  | some name, _, _, _ => (scope.names.className name).map .class
  | none, some id, _, _ => .ok (.parameter id)
  | none, none, some name, _ => (scope.names.string name).map .named
  | none, none, none, some name => (scope.names.className name).map .alias
  | none, none, none, none => .error (.missingField "Type.classifier")

def argumentNames (scope : Scope) (parameters : List Parameter) :
    Except DecodeError (List Text) :=
  parameters.mapM fun p => required "ValueParameter.name" p.name >>= scope.names.string

def parameterTypes (scope : Scope) (parameters : List Parameter) :
    Except DecodeError (List (Option TypeRef)) :=
  parameters.mapM fun p => scope.type? p.type p.typeId

/-- A receiver is the first parameter of the method. -/
def function (outer : Scope) (f : Payload.Function) : Except DecodeError Function := do
  let scope := outer.within f.typeTable
  let name ← required "Function.name" f.name >>= scope.names.string
  let methodName ← scope.stringOr name (f.signature.bind (·.name))
  let desc ←
    match f.signature.bind (·.desc) with
    | some i => (scope.names.string i).map some
    | none => do
      let receiver ← scope.type? f.receiverType f.receiverTypeId
      let parameters ← scope.parameterTypes f.parameters
      let result ← scope.type? f.returnType f.returnTypeId
      let result ← scope.descriptor? result
      scope.methodDescriptor? (receiver.toList.map some ++ parameters) result
  let arguments ← scope.argumentNames f.parameters
  .ok ⟨name, desc.map (⟨methodName, ·⟩), arguments⟩

def constructor (scope : Scope) (c : Payload.Constructor) : Except DecodeError Function := do
  let name ← scope.stringOr "<init>".toList (c.signature.bind (·.name))
  let desc ←
    match c.signature.bind (·.desc) with
    | some i => (scope.names.string i).map some
    | none => do
      let parameters ← scope.parameterTypes c.parameters
      scope.methodDescriptor? parameters (some ['V'])
  let arguments ← scope.argumentNames c.parameters
  .ok ⟨name, desc.map (⟨name, ·⟩), arguments⟩

def property (scope : Scope) (p : Payload.Property) : Except DecodeError Property := do
  let name ← required "Property.name" p.name >>= scope.names.string
  let some field := p.signature.bind (·.field) | .ok ⟨name, none⟩
  let fieldName ← scope.stringOr name field.name
  let desc ←
    match field.desc with
    | some i => (scope.names.string i).map some
    | none => scope.type? p.returnType p.returnTypeId >>= scope.descriptor?
  .ok ⟨name, desc.map (⟨fieldName, ·⟩)⟩

def members (scope : Scope) (functions : List Payload.Function)
    (properties : List Payload.Property) : Except DecodeError Members := do
  let functions ← functions.mapM scope.function
  let properties ← properties.mapM scope.property
  .ok ⟨functions, properties⟩

/-- Supertypes in place win over indices. -/
def supertypes (scope : Scope) (c : Payload.Class) : Except DecodeError (List Classifier) :=
  if c.supertypes.isEmpty then
    c.supertypeIds.mapM fun id => scope.typeAt id >>= scope.classifier
  else c.supertypes.mapM scope.classifier

def classInfo (scope : Scope) (c : Payload.Class) : Except DecodeError ClassInfo := do
  let name ← required "Class.fq_name" c.name >>= scope.names.className
  let supertypes ← scope.supertypes c
  let moduleName ← scope.stringOr "main".toList c.moduleName
  let companion ← c.companionName.mapM scope.names.string
  let typeAliases ← c.typeAliases.mapM fun a =>
    required "TypeAlias.name" a.name >>= scope.names.string
  let nestedClasses ← c.nestedClassNames.mapM scope.names.string
  let enumEntries ← c.enumEntries.mapM fun e =>
    required "EnumEntry.name" e.name >>= scope.names.string
  let constructors ← c.constructors.mapM scope.constructor
  let members ← scope.members c.functions c.properties
  .ok { name, supertypes, moduleName, typeAliases, companion, nestedClasses, enumEntries,
        constructors, members }

end Scope

namespace Payload

/-- A string table in a frame, and the message that takes the rest. -/
def read {σ : Type} (message : Schema σ) (bytes : List UInt8) :
    Except WireError (StringTableTypes × σ) := do
  let (types, rest) ←
    StringTableTypes.schema.readContent 100 .delimited StringTableTypes.schema.empty bytes
  let content ← message.readAll 100 rest
  .ok (types, content)

end Payload

namespace Header

/-- The names of a header, and the message of its payload. -/
def content {σ : Type} (h : Header) (message : Payload.Schema σ) :
    Except DecodeError (StringTable × σ) := do
  let (types, content) ← (Payload.read message (Payload.bytesOf h.data1)).mapError .malformed
  let names ← StringTable.of types h.data2
  .ok (names, content)

def package (h : Header) : Except DecodeError Members := do
  let (names, p) ← h.content Payload.Package.schema
  (Scope.of names p.typeTable).members p.functions p.properties

/-- Metadata versions 1 and 2 are understood. -/
def supported (version : List Int32) : Bool :=
  let major := version.headD 0
  1 ≤ major && major ≤ 2

/-- The description of a header, by its kind. -/
def describe (h : Header) : Except DecodeError Description := do
  if !supported h.metadataVersion then .error (.unsupportedVersion h.metadataVersion)
  else
    match h.kind with
    | 1 =>
      let (names, c) ← h.content Payload.Class.schema
      ((Scope.of names c.typeTable).classInfo c).map .class
    | 2 => h.package.map .fileFacade
    | 3 =>
      if h.data1.all List.isEmpty then .ok (.synthetic none)
      else
        let (names, f) ← h.content Payload.Function.schema
        ((Scope.of names none).function f).map fun f => .synthetic (some f)
    | 4 => .ok (.multiFileFacade h.data1)
    | 5 => h.package.map (.multiFilePart h.extraString)
    | _ => .ok .unknown

end Header

end SmaliReport
