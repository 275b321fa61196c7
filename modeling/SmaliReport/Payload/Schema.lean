import SmaliReport.Payload.Message

/-!
The messages of a Kotlin class header, as far as the report needs them. Names and types are
indices: into the string table, and into the type table in scope.
-/

namespace SmaliReport.Payload

/-- How a run of `range` neighbouring entries of the string table comes from the stored texts. -/
structure Record where
  range : Option Int32 := none
  predefinedIndex : Option Int32 := none
  operation : Option Int32 := none
  substringIndex : List Int32 := []
  replaceChar : List Int32 := []
  string : Option Text := none
  deriving DecidableEq

def Record.schema : Schema Record where
  name := "RecordProto"
  empty := {}
  fields :=
    [.int 1 "range" ⟨(·.range), fun v m => { m with range := v }⟩,
     .int 2 "predefined_index" ⟨(·.predefinedIndex), fun v m => { m with predefinedIndex := v }⟩,
     .int 3 "operation" ⟨(·.operation), fun v m => { m with operation := v }⟩,
     .ints 4 "substring_index" ⟨(·.substringIndex), fun v m => { m with substringIndex := v }⟩,
     .ints 5 "replace_char" ⟨(·.replaceChar), fun v m => { m with replaceChar := v }⟩,
     .text 6 "string" ⟨(·.string), fun v m => { m with string := v }⟩]

structure StringTableTypes where
  records : List Record := []
  localNames : List Int32 := []
  deriving DecidableEq

def StringTableTypes.schema : Schema StringTableTypes where
  name := "StringTableTypesProto"
  empty := {}
  fields :=
    [.messages 1 "records" Record.schema ⟨(·.records), fun v m => { m with records := v }⟩,
     .ints 5 "local_names" ⟨(·.localNames), fun v m => { m with localNames := v }⟩]

/-- What a type points at; the first of the four that is there counts. -/
structure TypeRef where
  className : Option Int32 := none
  typeParameter : Option Int32 := none
  typeParameterName : Option Int32 := none
  typeAliasName : Option Int32 := none
  deriving DecidableEq

def TypeRef.schema : Schema TypeRef where
  name := "TypeProto"
  empty := {}
  fields :=
    [.int 6 "class_name" ⟨(·.className), fun v m => { m with className := v }⟩,
     .int 7 "type_parameter" ⟨(·.typeParameter), fun v m => { m with typeParameter := v }⟩,
     .int 9 "type_parameter_name"
       ⟨(·.typeParameterName), fun v m => { m with typeParameterName := v }⟩,
     .int 12 "type_alias_name" ⟨(·.typeAliasName), fun v m => { m with typeAliasName := v }⟩]

structure TypeTable where
  types : List TypeRef := []
  deriving DecidableEq

def TypeTable.schema : Schema TypeTable where
  name := "TypeTableProto"
  empty := {}
  fields := [.messages 1 "types" TypeRef.schema ⟨(·.types), fun v m => { m with types := v }⟩]

/-- Name and descriptor of a method or field in the class file. -/
structure Signature where
  name : Option Int32 := none
  desc : Option Int32 := none
  deriving DecidableEq

def Signature.schema : Schema Signature where
  name := "JvmSignatureProto"
  empty := {}
  fields :=
    [.int 1 "name" ⟨(·.name), fun v m => { m with name := v }⟩,
     .int 2 "desc" ⟨(·.desc), fun v m => { m with desc := v }⟩]

structure PropertySignature where
  field : Option Signature := none
  deriving DecidableEq

def PropertySignature.schema : Schema PropertySignature where
  name := "JvmPropertySignatureProto"
  empty := {}
  fields := [.message 1 "field" Signature.schema ⟨(·.field), fun v m => { m with field := v }⟩]

structure Parameter where
  name : Option Int32 := none
  type : Option TypeRef := none
  typeId : Option Int32 := none
  deriving DecidableEq

def Parameter.schema : Schema Parameter where
  name := "ValueParameterProto"
  empty := {}
  fields :=
    [.int 2 "name" ⟨(·.name), fun v m => { m with name := v }⟩,
     .message 3 "type_" TypeRef.schema ⟨(·.type), fun v m => { m with type := v }⟩,
     .int 5 "type_id" ⟨(·.typeId), fun v m => { m with typeId := v }⟩]

structure Constructor where
  parameters : List Parameter := []
  signature : Option Signature := none
  deriving DecidableEq

def Constructor.schema : Schema Constructor where
  name := "ConstructorProto"
  empty := {}
  fields :=
    [.messages 2 "value_parameters" Parameter.schema
       ⟨(·.parameters), fun v m => { m with parameters := v }⟩,
     .message 100 "signature" Signature.schema
       ⟨(·.signature), fun v m => { m with signature := v }⟩]

structure Function where
  name : Option Int32 := none
  returnType : Option TypeRef := none
  receiverType : Option TypeRef := none
  parameters : List Parameter := []
  returnTypeId : Option Int32 := none
  receiverTypeId : Option Int32 := none
  typeTable : Option TypeTable := none
  signature : Option Signature := none
  deriving DecidableEq

def Function.schema : Schema Function where
  name := "FunctionProto"
  empty := {}
  fields :=
    [.int 2 "name" ⟨(·.name), fun v m => { m with name := v }⟩,
     .message 3 "return_type" TypeRef.schema
       ⟨(·.returnType), fun v m => { m with returnType := v }⟩,
     .message 5 "receiver_type" TypeRef.schema
       ⟨(·.receiverType), fun v m => { m with receiverType := v }⟩,
     .messages 6 "value_parameters" Parameter.schema
       ⟨(·.parameters), fun v m => { m with parameters := v }⟩,
     .int 7 "return_type_id" ⟨(·.returnTypeId), fun v m => { m with returnTypeId := v }⟩,
     .int 8 "receiver_type_id" ⟨(·.receiverTypeId), fun v m => { m with receiverTypeId := v }⟩,
     .message 30 "type_table" TypeTable.schema
       ⟨(·.typeTable), fun v m => { m with typeTable := v }⟩,
     .message 100 "signature" Signature.schema
       ⟨(·.signature), fun v m => { m with signature := v }⟩]

structure Property where
  name : Option Int32 := none
  returnType : Option TypeRef := none
  returnTypeId : Option Int32 := none
  signature : Option PropertySignature := none
  deriving DecidableEq

def Property.schema : Schema Property where
  name := "PropertyProto"
  empty := {}
  fields :=
    [.int 2 "name" ⟨(·.name), fun v m => { m with name := v }⟩,
     .message 3 "return_type" TypeRef.schema
       ⟨(·.returnType), fun v m => { m with returnType := v }⟩,
     .int 9 "return_type_id" ⟨(·.returnTypeId), fun v m => { m with returnTypeId := v }⟩,
     .message 100 "signature" PropertySignature.schema
       ⟨(·.signature), fun v m => { m with signature := v }⟩]

structure TypeAlias where
  name : Option Int32 := none
  deriving DecidableEq

def TypeAlias.schema : Schema TypeAlias where
  name := "TypeAliasProto"
  empty := {}
  fields := [.int 2 "name" ⟨(·.name), fun v m => { m with name := v }⟩]

structure EnumEntry where
  name : Option Int32 := none
  deriving DecidableEq

def EnumEntry.schema : Schema EnumEntry where
  name := "EnumEntryProto"
  empty := {}
  fields := [.int 1 "name" ⟨(·.name), fun v m => { m with name := v }⟩]

structure Class where
  supertypeIds : List Int32 := []
  name : Option Int32 := none
  companionName : Option Int32 := none
  supertypes : List TypeRef := []
  nestedClassNames : List Int32 := []
  constructors : List Constructor := []
  functions : List Function := []
  properties : List Property := []
  typeAliases : List TypeAlias := []
  enumEntries : List EnumEntry := []
  typeTable : Option TypeTable := none
  moduleName : Option Int32 := none
  deriving DecidableEq

def Class.schema : Schema Class where
  name := "ClassProto"
  empty := {}
  fields :=
    [.ints 2 "supertype_ids" ⟨(·.supertypeIds), fun v m => { m with supertypeIds := v }⟩,
     .int 3 "fq_name" ⟨(·.name), fun v m => { m with name := v }⟩,
     .int 4 "companion_object_name"
       ⟨(·.companionName), fun v m => { m with companionName := v }⟩,
     .messages 6 "supertypes" TypeRef.schema
       ⟨(·.supertypes), fun v m => { m with supertypes := v }⟩,
     .ints 7 "nested_class_names"
       ⟨(·.nestedClassNames), fun v m => { m with nestedClassNames := v }⟩,
     .messages 8 "constructors" Constructor.schema
       ⟨(·.constructors), fun v m => { m with constructors := v }⟩,
     .messages 9 "functions" Function.schema ⟨(·.functions), fun v m => { m with functions := v }⟩,
     .messages 10 "properties" Property.schema
       ⟨(·.properties), fun v m => { m with properties := v }⟩,
     .messages 11 "type_aliases" TypeAlias.schema
       ⟨(·.typeAliases), fun v m => { m with typeAliases := v }⟩,
     .messages 13 "enum_entries" EnumEntry.schema
       ⟨(·.enumEntries), fun v m => { m with enumEntries := v }⟩,
     .message 30 "type_table" TypeTable.schema
       ⟨(·.typeTable), fun v m => { m with typeTable := v }⟩,
     .int 101 "module_name" ⟨(·.moduleName), fun v m => { m with moduleName := v }⟩]

structure Package where
  functions : List Function := []
  properties : List Property := []
  typeAliases : List TypeAlias := []
  typeTable : Option TypeTable := none
  moduleName : Option Int32 := none
  deriving DecidableEq

def Package.schema : Schema Package where
  name := "PackageProto"
  empty := {}
  fields :=
    [.messages 3 "functions" Function.schema ⟨(·.functions), fun v m => { m with functions := v }⟩,
     .messages 4 "properties" Property.schema
       ⟨(·.properties), fun v m => { m with properties := v }⟩,
     .messages 5 "type_aliases" TypeAlias.schema
       ⟨(·.typeAliases), fun v m => { m with typeAliases := v }⟩,
     .message 30 "type_table" TypeTable.schema
       ⟨(·.typeTable), fun v m => { m with typeTable := v }⟩,
     .int 101 "module_name" ⟨(·.moduleName), fun v m => { m with moduleName := v }⟩]

end SmaliReport.Payload
