import SmaliReport.Config.Json
import SmaliReport.Config.Scan
import SmaliReport.Config.Toml
import SmaliReport.Config.Yaml.Document
import SmaliReport.FileSystem.Access

/-!
The settings of a run: variables of the environment over the first configuration file found, over
the defaults.
-/

namespace SmaliReport

structure Settings where
  defaultDestination : Option Text := none
  allFiles : Bool := false
  force : Bool := false
  logLevel : Text := "warn".toList
  deriving DecidableEq

inductive SettingsError where
  /-- A file that cannot be read, or does not keep to its syntax. -/
  | unreadable
  /-- A value that is no flag or text where one is needed. -/
  | wrongType
  deriving DecidableEq

def SettingsError.message : SettingsError → Text
  | .unreadable => "Failed to load configuration".toList
  | .wrongType => "Failed to parse configuration".toList

namespace Settings

open Config

abbrev Entries := List (Text × Value)

/-- File names in the order they are looked for, and how to read each. -/
def sources : List (String × (Text → Option Value)) :=
  [("kmparse.toml", Toml.read?), ("kmparse.yaml", Yaml.read?), ("kmparse.json", Json.read?),
   (".kmparse.toml", Toml.read?)]

/-- The text of a file, without a byte order mark. -/
def decode (bytes : List UInt8) : Text :=
  Text.ofUtf8Lossy (([0xEF, 0xBB, 0xBF].isPrefixOf? bytes).getD bytes)

/-- What a path of keys and indices makes of the value at its first key, if it goes on from there.
A path starts with a name; a dot and a name, or an index in square brackets, lead on. -/
def container? (key : Text) : Option (Text × Value) := Scan.run? (do
  let first ← name
  let steps ← Scan.many ((Scan.exactly "." *> name *> pure (.table [])) <|>
    (index *> pure (.list [])))
  liftM (steps.head?.map fun v => (first, v))) key
where
  name : Scan Text := Scan.takeWhile1 fun c => c.isAlphanum || c = '_' || c = '-'
  blanks : Scan Unit := do
    let _ ← Scan.takeWhile fun c => c = ' ' || c = '\t'
  index : Scan Unit := do
    Scan.exactly "["
    blanks
    let negative ← optional (Scan.exactly "-")
    let n := Text.value 10 (← Scan.takeWhile1 (Text.isDigit 10))
    let _ ← liftM (integer? (if negative.isSome then -(n : Int) else n))
    blanks
    Scan.exactly "]"

/-- A key that is a path sets a value within the one at its first key. -/
def assign (entries : Entries) (key : Text) (v : Value) : Entries :=
  let (key, v) := (container? key).getD (key, v)
  entries.filter (·.1 ≠ key) ++ [(key, v)]

/-- Two underscores in a text become a dot. -/
def dotted : Text → Text
  | '_' :: '_' :: rest => '.' :: dotted rest
  | c :: rest => c :: dotted rest
  | [] => []

/-- The key that a variable sets, if it sets one. -/
def keyOf? (name : Text) : Option Text :=
  ("kmparse__".toList.isPrefixOf? (Text.lower name)).map dotted

def fileEntries (fs : FileSystem) (dir : Path) : Except SettingsError Entries :=
  match sources.find? fun (name, _) => fs.has (Path.join dir (Path.of name)) with
  | none => .ok []
  | some (name, read) =>
    match (fs.read (Path.join dir (Path.of name))).toOption.bind (read ∘ decode) with
    | some (.table entries) => .ok (entries.foldl (fun es (key, v) => assign es key v) [])
    | _ => .error .unreadable

def withVariables (env : List (Text × Text)) (entries : Entries) : Entries :=
  env.foldl (fun es (name, value) =>
    match keyOf? name with
    | some key => assign es key (.text value)
    | none => es) entries

def ofEntries (entries : Entries) : Except SettingsError Settings := do
  let get {α : Type} (key : String) (default : α) (read : Value → Option α) :
      Except SettingsError α :=
    match entries.lookup key.toList with
    | none => .ok default
    | some v =>
      match read v with
      | some a => .ok a
      | none => .error .wrongType
  let destination : Value → Option (Option Text)
    | .null => some none
    | v => v.text?.map some
  let defaults : Settings := {}
  .ok {
    defaultDestination := ← get "default_destination" defaults.defaultDestination destination
    allFiles := ← get "all_files" defaults.allFiles Value.bool?
    force := ← get "force" defaults.force Value.bool?
    logLevel := ← get "log_level" defaults.logLevel Value.text? }

/-- The settings for a directory and an environment. -/
def load (fs : FileSystem) (dir : Path) (env : List (Text × Text)) :
    Except SettingsError Settings := do
  let entries ← fileEntries fs dir
  ofEntries (withVariables env entries)

/-- The configuration file of the defaults. -/
def initialFile : Text :=
  "all_files = false\nforce = false\nlog_level = \"warn\"\n".toList

end Settings

end SmaliReport
