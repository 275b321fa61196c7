import SmaliReport.Text.Utf8

/-!
Paths are bytes. Names stand between slashes; a path that starts with a slash is absolute. Empty
names and `.` lead nowhere, so that the last name of `a/./` is `a`. An access refuses a path of
4096 bytes or more. Programs show a path as a text, with U+FFFD for what is no UTF-8 in it.
-/

namespace SmaliReport

/-- What an entry of a directory is called. No two entries have the same name, but the texts of two
names may be the same. -/
abbrev Name := List UInt8

abbrev Path := List UInt8

namespace Path

def slash : UInt8 := 0x2F

/-- The name that leads nowhere. -/
def dot : Name := [0x2E]

/-- The name that leads upwards. -/
def dots : Name := [0x2E, 0x2E]

def ofText (t : Text) : Path := Text.toUtf8 t

/-- The path that is written like this. -/
def of (path : String) : Path := ofText path.toList

def text (path : Path) : Text := Text.ofUtf8Lossy path

def isAbsolute (path : Path) : Bool := [slash].isPrefixOf path

/-- The names that lead somewhere. -/
def names (path : Path) : List Name := (path.splitOn slash).filter fun n => n ≠ [] ∧ n ≠ dot

/-- The names a path is walked by; one that ends in a slash stays in a directory. -/
def steps (path : Path) : List Name :=
  (path.splitOn slash).filter (· ≠ []) ++ if [slash].isSuffixOf path then [dot] else []

/-- An absolute path replaces the base. -/
def join (base path : Path) : Path :=
  if isAbsolute path then path
  else if base = [] ∨ [slash].isSuffixOf base then base ++ path
  else base ++ slash :: path

/-- May an access be given the path? -/
def fits (path : Path) : Bool := path.length < 4096

/-- Names with slashes between them. -/
def joined (names : List Name) : Path := [slash].intercalate names

/-- The absolute path of a place. -/
def ofPlace (place : List Name) : Path := slash :: joined place

/-- The last name, unless it leads upwards. -/
def fileName? (path : Path) : Option Name := (names path).getLast?.filter (· ≠ dots)

/-- Does a dot and the extension end the name, behind something else? -/
def hasExtension (extension name : Name) : Bool :=
  (((dot ++ extension).isSuffixOf? name).map fun stem => !stem.isEmpty).getD false

/-- The path without its last name. -/
def parent? (path : Path) : Option Path :=
  let above := joined (names path).dropLast
  if names path = [] then none else some (if isAbsolute path then slash :: above else above)

end Path

end SmaliReport
