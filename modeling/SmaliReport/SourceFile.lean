import SmaliReport.FileSystem.Access

/-! Reading a source file, and what is said when an access fails. -/

namespace SmaliReport

/-- A failed access and what it was for. -/
structure Failure where
  context : Text
  cause : FileError
  deriving DecidableEq

def Failure.message (f : Failure) : Text := f.context ++ ": ".toList ++ f.cause.message.toList

/-- The result of an access, with a failure that names the path. -/
def FileError.during {α : Type} (activity : String) (path : Path) (result : Except FileError α) :
    Except Failure α :=
  result.mapError fun cause => ⟨activity.toList ++ ' ' :: path.text, cause⟩

structure SourceFile where
  bytes : List UInt8

namespace SourceFile

def read (fs : FileSystem) (path : Path) : Except Failure SourceFile := do
  let _ ← FileError.during "Failed to read metadata for" path (fs.find path)
  let bytes ← FileError.during "Failed to read file" path (fs.read path)
  .ok ⟨bytes⟩

/-- Files above one mebibyte are mapped into memory rather than copied. -/
def mapped (f : SourceFile) : Bool := 1024 * 1024 < f.bytes.length

def text (f : SourceFile) : Text := Text.ofUtf8Lossy f.bytes

end SourceFile

end SmaliReport
