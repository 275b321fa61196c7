import SmaliReport.Text.Basic

/-! What a report says about a class, by the kind of its header. -/

namespace SmaliReport

/-- What a type points at. -/
inductive Classifier where
  | class (name : Text)
  | alias (name : Text)
  | parameter (id : Int32)
  | named (name : Text)
  deriving DecidableEq

/-- Name and descriptor of a member in the class file. -/
structure Signature where
  name : Text
  desc : Text
  deriving DecidableEq

/-- A function or constructor; without signature if a type has no descriptor. -/
structure Function where
  name : Text
  signature : Option Signature
  arguments : List Text
  deriving DecidableEq

/-- A property; without field if it has none or its type has no descriptor. -/
structure Property where
  name : Text
  field : Option Signature
  deriving DecidableEq

structure Members where
  functions : List Function
  properties : List Property
  deriving DecidableEq

structure ClassInfo where
  name : Text
  supertypes : List Classifier
  moduleName : Text
  typeAliases : List Text
  companion : Option Text
  nestedClasses : List Text
  enumEntries : List Text
  constructors : List Function
  members : Members
  deriving DecidableEq

inductive Description where
  | class (info : ClassInfo)
  | fileFacade (members : Members)
  /-- A class the compiler made; `lambda` if it stands for a function. -/
  | synthetic (lambda : Option Function)
  | multiFileFacade (parts : List Text)
  | multiFilePart (facade : Text) (members : Members)
  | unknown
  deriving DecidableEq

end SmaliReport
