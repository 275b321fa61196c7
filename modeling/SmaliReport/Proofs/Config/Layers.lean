import Mathlib
import SmaliReport.Config.Settings

/-!
The layers of the settings. A file and the variables are one row of assignments, in which the last
one for a key counts, so a variable wins over the file and the file over the defaults. The mark
between the program's name and a key is two underscores: a variable with one does nothing.
-/

namespace SmaliReport.Settings

open Config

/-- The key that an entry sets, and its value there. -/
def placed (entry : Text × Value) : Text × Value := (container? entry.1).getD entry

/-- The value at a key after a row of assignments. -/
def valueAt? (key : Text) (row : Entries) : Option Value := (row.reverse.map placed).lookup key

/-- The table of the first configuration file in a directory; an empty one without any. -/
inductive Tabled (fs : FileSystem) (dir : Path) : Entries → Prop where
  | absent : (sources.find? fun source => fs.has (Path.join dir (Path.of source.1))) = none →
      Tabled fs dir []
  | file {name : String} {read : Text → Option Value} {bytes : List UInt8} {table : Entries} :
      (sources.find? fun source => fs.has (Path.join dir (Path.of source.1))) = some (name, read) →
      fs.read (Path.join dir (Path.of name)) = .ok bytes →
      read (decode bytes) = some (.table table) → Tabled fs dir table

/-- A destination as a file has it; a null is none. -/
def destination? : Value → Option (Option Text)
  | .null => some none
  | v => v.text?.map some

/-- What a table has at the keys of the settings can be read. -/
structure Valid (table : Entries) : Prop where
  destination : ∀ v, valueAt? "default_destination".toList table = some v → (destination? v).isSome
  allFiles : ∀ v, valueAt? "all_files".toList table = some v → v.bool?.isSome
  force : ∀ v, valueAt? "force".toList table = some v → v.bool?.isSome
  logLevel : ∀ v, valueAt? "log_level".toList table = some v → v.text?.isSome

/-- Values for some of the settings. -/
structure Choice where
  defaultDestination : Option Text := none
  allFiles : Option Bool := none
  force : Option Bool := none
  logLevel : Option Text := none

def flag (b : Bool) : Text := (if b then "true" else "false").toList

namespace Choice

/-- The chosen values by their keys, as texts. -/
def texts (c : Choice) : List (String × Option Text) :=
  [("default_destination", c.defaultDestination), ("all_files", c.allFiles.map flag),
    ("force", c.force.map flag), ("log_level", c.logLevel)]

/-- The variables that state a choice, with a mark before the key in capitals. -/
def environment (mark : String) (c : Choice) : List (Text × Text) :=
  c.texts.filterMap fun (key, t) => t.map (("KMPARSE" ++ mark ++ key.toUpper).toList, ·)

/-- The assignments of a choice. -/
def entries (c : Choice) : Entries :=
  c.texts.filterMap fun (key, t) => t.map fun t => (key.toList, .text t)

end Choice

/-- What the variables of an environment assign. -/
def assigned (env : List (Text × Text)) : Entries :=
  env.filterMap fun (name, value) => (keyOf? name).map (·, .text value)

theorem lookup_without (key other : Text) (entries : Entries) :
    (entries.filter (·.1 ≠ key)).lookup other =
      if other = key then none else entries.lookup other := by
  by_cases here : other = key
  · subst here
    rw [if_pos rfl, List.lookup_eq_none_iff]
    intro entry member
    have apart : entry.1 ≠ other := by simpa using (List.mem_filter.mp member).2
    simpa using Ne.symm apart
  · rw [if_neg here]
    induction entries with
    | nil => rfl
    | cons entry rest ih =>
      obtain ⟨first, v⟩ := entry
      by_cases same : first = key
      · have apart : (other == first) = false := by simpa [same] using here
        rw [List.filter_cons_of_neg (by simpa using same), ih, List.lookup_cons, apart]
      · rw [List.filter_cons_of_pos (by simpa using same), List.lookup_cons, List.lookup_cons, ih]

theorem lookup_assign (entries : Entries) (key other : Text) (v : Value) :
    (assign entries key v).lookup other =
      ([placed (key, v)].lookup other).or (entries.lookup other) := by
  have shape : assign entries key v =
      entries.filter (·.1 ≠ (placed (key, v)).1) ++ [placed (key, v)] := rfl
  generalize placed (key, v) = put at shape
  obtain ⟨place, value⟩ := put
  rw [shape, List.lookup_append, lookup_without]
  by_cases here : other = place
  · simp [here]
  · have apart : (other == place) = false := by simpa using here
    simp [here, List.lookup_cons, apart]

/-- Of the assignments to a key the last one counts. -/
theorem lookup_assigns (row entries : Entries) (key : Text) :
    (row.foldl (fun es (key, v) => assign es key v) entries).lookup key =
      (valueAt? key row).or (entries.lookup key) := by
  induction row generalizing entries with
  | nil => rfl
  | cons first rest ih =>
    rw [List.foldl_cons, ih, lookup_assign, valueAt?, valueAt?, List.reverse_cons, List.map_append,
      List.lookup_append, Option.or_assoc]
    rfl

theorem withVariables_eq (env : List (Text × Text)) (entries : Entries) :
    withVariables env entries =
      (assigned env).foldl (fun es (key, v) => assign es key v) entries := by
  induction env generalizing entries with
  | nil => rfl
  | cons first rest ih =>
    obtain ⟨name, value⟩ := first
    rw [withVariables, List.foldl_cons, ← withVariables, ih, assigned, assigned,
      List.filterMap_cons]
    cases found : keyOf? name with
    | none => simp only [found, Option.map_none]
    | some key => simp only [found, Option.map_some, List.foldl_cons]

/-- An environment changes a key by what its variables assign to it. -/
theorem lookup_layers (table : Entries) (env : List (Text × Text)) (key : Text) :
    (withVariables env (table.foldl (fun es (key, v) => assign es key v) [])).lookup key =
      (valueAt? key (assigned env)).or (valueAt? key table) := by
  rw [withVariables_eq, lookup_assigns, lookup_assigns, List.lookup_nil, Option.or_none]

/-! What the variables of a choice assign. -/

def keys : List String := ["default_destination", "all_files", "force", "log_level"]

theorem keyOf_doubled : ∀ key ∈ keys, keyOf? ("KMPARSE" ++ "__" ++ key.toUpper).toList =
    some key.toList := by decide +kernel

theorem keyOf_single : ∀ key ∈ keys, keyOf? ("KMPARSE" ++ "_" ++ key.toUpper).toList = none := by
  decide +kernel

theorem container_keys : ∀ key ∈ keys, container? key.toList = none := by
  have plain : ∀ key ∈ keys, (container? key.toList).isNone = true := by decide +kernel
  exact fun key member => Option.isNone_iff_eq_none.mp (plain key member)

namespace Choice

theorem key_mem (c : Choice) {key : String} {t : Option Text} (member : (key, t) ∈ c.texts) :
    key ∈ keys := by
  have shown : c.texts.map (·.1) = keys := rfl
  exact shown ▸ List.mem_map_of_mem member

theorem text_unique (c : Choice) {key : String} {t u : Option Text} (member : (key, t) ∈ c.texts)
    (other_member : (key, u) ∈ c.texts) : t = u := by
  have apart : (c.texts.map (·.1)).Nodup := by
    have shown : c.texts.map (·.1) = keys := rfl
    rw [shown]
    decide
  exact (Prod.mk.inj (List.inj_on_of_nodup_map apart member other_member rfl)).2

theorem mem_entries_iff (c : Choice) (entry : Text × Value) : entry ∈ c.entries ↔
    ∃ key t, (key, some t) ∈ c.texts ∧ entry = (key.toList, .text t) := by
  rw [entries, List.mem_filterMap]
  constructor
  · rintro ⟨⟨key, t⟩, member, same⟩
    obtain ⟨t, rfl, rfl⟩ := Option.map_eq_some_iff.mp same
    exact ⟨key, t, member, rfl⟩
  · rintro ⟨key, t, member, rfl⟩
    exact ⟨(key, some t), member, rfl⟩

theorem assigned_doubled (c : Choice) : assigned (c.environment "__") = c.entries := by
  rw [assigned, environment, entries, List.filterMap_filterMap]
  refine List.filterMap_congr fun (key, t) member => ?_
  cases t with
  | none => rfl
  | some t =>
    have set := keyOf_doubled key (c.key_mem member)
    simp only [Option.map_some, Option.bind_some, set]

theorem assigned_single (c : Choice) : assigned (c.environment "_") = [] := by
  rw [assigned, environment, List.filterMap_filterMap, List.filterMap_eq_nil_iff]
  intro (key, t) member
  cases t with
  | none => rfl
  | some t =>
    have quiet := keyOf_single key (c.key_mem member)
    simp only [Option.map_some, Option.bind_some, quiet, Option.map_none]

/-- The row of a choice has at each key what was chosen for it, in whatever order it stands. -/
theorem valueAt_entries (c : Choice) {row : Entries} (perm : row.Perm c.entries) {key : String}
    {t : Option Text} (member : (key, t) ∈ c.texts) : valueAt? key.toList row = t.map .text := by
  have known (entry : Text × Value) : entry ∈ row.reverse ↔
      ∃ key t, (key, some t) ∈ c.texts ∧ entry = (key.toList, .text t) := by
    rw [List.mem_reverse, perm.mem_iff, mem_entries_iff]
  have here : row.reverse.map placed = row.reverse := by
    rw [List.map_congr_left, List.map_id]
    intro entry inside
    obtain ⟨key, t, stated, rfl⟩ := (known entry).mp inside
    rw [placed, container_keys key (c.key_mem stated)]
    rfl
  rw [valueAt?, here]
  cases found : row.reverse.lookup key.toList with
  | none =>
    cases t with
    | none => rfl
    | some t =>
      have apart := List.lookup_eq_none_iff.mp found _ ((known _).mpr ⟨key, t, member, rfl⟩)
      simp at apart
  | some v =>
    obtain ⟨before, after, shape, _⟩ := List.lookup_eq_some_iff.mp found
    obtain ⟨other, u, stated, same⟩ := (known (key.toList, v)).mp (by simp [shape])
    obtain ⟨place, rfl⟩ := Prod.mk.inj same
    obtain rfl : key = other := String.toList_injective place
    rw [c.text_unique member stated]
    rfl

end Choice

/-! The settings, key by key. -/

/-- What is read at a key, or its default. -/
def fetch {α : Type} (entries : Entries) (key : String) (default : α) (read : Value → Option α) :
    Except SettingsError α :=
  match entries.lookup key.toList with
  | none => .ok default
  | some v =>
    match read v with
    | some a => .ok a
    | none => .error .wrongType

theorem ofEntries_eq (entries : Entries) :
    ofEntries entries = (do
      let d ← fetch entries "default_destination" none destination?
      let a ← fetch entries "all_files" false Value.bool?
      let f ← fetch entries "force" false Value.bool?
      let l ← fetch entries "log_level" "warn".toList Value.text?
      .ok { defaultDestination := d, allFiles := a, force := f, logLevel := l }) := rfl

/-- A key is read from what was chosen for it, else from the file, else it has its default. -/
theorem fetch_layers {α β : Type} {entries : Entries} {key : String} {read : Value → Option α}
    {chosen : Option β} {file : Option Value} (default : α) (spell : β → Value) (mean : β → α)
    (spelled : ∀ b, read (spell b) = some (mean b))
    (found : entries.lookup key.toList = (chosen.map spell).or file)
    (valid : ∀ v, file = some v → (read v).isSome) :
    fetch entries key default read =
      .ok (((chosen.map mean).or (file.bind read)).getD default) := by
  rw [fetch, found]
  cases chosen with
  | some b => simp only [Option.map_some, Option.some_or, spelled, Option.getD_some]
  | none =>
    cases file with
    | none => rfl
    | some v =>
      obtain ⟨a, known⟩ := Option.isSome_iff_exists.mp (valid v rfl)
      simp only [Option.map_none, Option.none_or, Option.bind_some, known, Option.getD_some]

theorem fileEntries_tabled {fs : FileSystem} {dir : Path} {table : Entries}
    (tabled : Tabled fs dir table) :
    fileEntries fs dir = .ok (table.foldl (fun es (key, v) => assign es key v) []) := by
  cases tabled with
  | absent missing => rw [fileEntries, missing]; rfl
  | file first bytes stated =>
    rw [fileEntries, first]
    simp only [bytes, Except.toOption, Option.bind_some, Function.comp_apply, stated]

/-- Of all variables those with two underscores assign what they state, and nothing else is
assigned. -/
theorem assigned_set {single doubled : Choice} {others env : List (Text × Text)}
    (quiet : ∀ other ∈ others, keyOf? other.1 = none)
    (set : env.Perm (single.environment "_" ++ doubled.environment "__" ++ others)) :
    (assigned env).Perm doubled.entries := by
  have others_quiet : assigned others = [] := by
    refine List.filterMap_eq_nil_iff.mpr fun (name, value) member => ?_
    simp only [quiet _ member, Option.map_none]
  have shuffled := set.filterMap fun (name, value) => (keyOf? name).map (·, Value.text value)
  rw [List.filterMap_append, List.filterMap_append] at shuffled
  change (assigned env).Perm (assigned (single.environment "_") ++
    assigned (doubled.environment "__") ++ assigned others) at shuffled
  rwa [single.assigned_single, doubled.assigned_doubled, others_quiet, List.nil_append,
    List.append_nil] at shuffled

/-- At the key of a setting a chosen value stands before what the file has there. -/
theorem lookup_chosen {c : Choice} {env : List (Text × Text)}
    (row : (assigned env).Perm c.entries) (table : Entries) {key : String} {t : Option Text}
    (member : (key, t) ∈ c.texts) :
    (withVariables env (table.foldl (fun es (key, v) => assign es key v) [])).lookup key.toList =
      (t.map .text).or (valueAt? key.toList table) := by
  rw [lookup_layers, c.valueAt_entries row member]

theorem lookup_chosen_flag {c : Choice} {env : List (Text × Text)}
    (row : (assigned env).Perm c.entries) (table : Entries) {key : String} {b : Option Bool}
    (member : (key, b.map flag) ∈ c.texts) :
    (withVariables env (table.foldl (fun es (key, v) => assign es key v) [])).lookup key.toList =
      (b.map (Value.text ∘ flag)).or (valueAt? key.toList table) := by
  rw [lookup_chosen row table member, Option.map_map]

theorem bool_flag (b : Bool) : (Value.text (flag b)).bool? = some b := by
  cases b <;> decide

/-- With no configuration file or a valid one, and whatever else is in the environment, every
setting has the value of its variable, if that is named with two underscores, else the value in the
file, else its default. Variables that are named with one underscore change nothing. -/
theorem load_layers {fs : FileSystem} {dir : Path} {table : Entries} (tabled : Tabled fs dir table)
    (valid : Valid table) (single doubled : Choice) {others env : List (Text × Text)}
    (quiet : ∀ other ∈ others, keyOf? other.1 = none)
    (set : env.Perm (single.environment "_" ++ doubled.environment "__" ++ others)) :
    load fs dir env = .ok
      { defaultDestination := ((doubled.defaultDestination.map some).or
          ((valueAt? "default_destination".toList table).bind destination?)).getD none
        allFiles := (doubled.allFiles.or
          ((valueAt? "all_files".toList table).bind Value.bool?)).getD false
        force := (doubled.force.or ((valueAt? "force".toList table).bind Value.bool?)).getD false
        logLevel := (doubled.logLevel.or
          ((valueAt? "log_level".toList table).bind Value.text?)).getD "warn".toList } := by
  have row := assigned_set quiet set
  have destination := fetch_layers none .text some (fun _ => rfl)
    (lookup_chosen row table (t := doubled.defaultDestination) (by simp [Choice.texts]))
    valid.destination
  have allFiles := fetch_layers false (.text ∘ flag) id bool_flag
    (lookup_chosen_flag row table (b := doubled.allFiles) (by simp [Choice.texts])) valid.allFiles
  have force := fetch_layers false (.text ∘ flag) id bool_flag
    (lookup_chosen_flag row table (b := doubled.force) (by simp [Choice.texts])) valid.force
  have logLevel := fetch_layers "warn".toList .text id (fun _ => rfl)
    (lookup_chosen row table (t := doubled.logLevel) (by simp [Choice.texts])) valid.logLevel
  rw [load, fileEntries_tabled tabled]
  change ofEntries _ = _
  rw [ofEntries_eq, destination, allFiles, force, logLevel]
  simp only [Option.map_id, id_eq]
  rfl

def configText : Text := "default_destination = \"reports\"\nforce = true\n".toList

def configured : FileSystem where
  entries := [(Path.of "kmparse.toml", .file (Text.toUtf8 configText))]

def configTable : Entries :=
  [("default_destination".toList, .text "reports".toList), ("force".toList, .bool true)]

theorem tabled_configured : Tabled configured Path.dot configTable := by
  have there : configured.has (Path.join Path.dot (Path.of "kmparse.toml")) = true := by
    decide +kernel
  have first : (sources.find? fun source => configured.has (Path.join Path.dot (Path.of source.1))) =
      some ("kmparse.toml", Toml.read?) :=
    List.find?_cons_of_pos there
  have bytes : configured.read (Path.join Path.dot (Path.of "kmparse.toml")) =
      .ok (Text.toUtf8 configText) := by
    decide +kernel
  have table : Toml.read? (decode (Text.toUtf8 configText)) = some (.table configTable) := by
    cbv
  exact .file first bytes table

theorem valid_configured : Valid configTable where
  destination v found := by cases found; rfl
  allFiles v found := by cases found
  force v found := by cases found; rfl
  logLevel v found := by cases found

/-- Variables of both spellings; those with one underscore contradict the others. -/
def crowded : List (Text × Text) :=
  [("KMPARSE_FORCE".toList, "true".toList), ("KMPARSE__LOG_LEVEL".toList, "debug".toList),
    ("PATH".toList, "/bin".toList), ("KMPARSE_ALL_FILES".toList, "true".toList),
    ("KMPARSE__FORCE".toList, "false".toList)]

theorem load_layers_crowded :
    Tabled configured Path.dot configTable ∧ Valid configTable ∧
    (∀ other ∈ [("PATH".toList, "/bin".toList)], keyOf? other.1 = none) ∧
    crowded.Perm (Choice.environment "_" { allFiles := some true, force := some true } ++
      Choice.environment "__" { force := some false, logLevel := some "debug".toList } ++
      [("PATH".toList, "/bin".toList)]) ∧
    load configured Path.dot crowded = .ok
      { defaultDestination := some "reports".toList, logLevel := "debug".toList } := by
  have quiet : ∀ other ∈ [("PATH".toList, "/bin".toList)], keyOf? other.1 = none := by
    decide +kernel
  have set : crowded.Perm (Choice.environment "_" { allFiles := some true, force := some true } ++
      Choice.environment "__" { force := some false, logLevel := some "debug".toList } ++
      [("PATH".toList, "/bin".toList)]) := by
    decide +kernel
  refine ⟨tabled_configured, valid_configured, quiet, set, ?_⟩
  rw [load_layers tabled_configured valid_configured _ _ quiet set]
  rfl

/-- A documented variable on its own: it asks for the flag, and the flag is not set. -/
theorem load_single_ignored :
    Tabled {} Path.dot [] ∧ Valid [] ∧
    Choice.environment "_" { force := some true } = [("KMPARSE_FORCE".toList, "true".toList)] ∧
    load {} Path.dot [("KMPARSE_FORCE".toList, "true".toList)] = .ok { force := false } := by
  have bare : (sources.find? fun source =>
      FileSystem.has {} (Path.join Path.dot (Path.of source.1))) = none :=
    List.find?_eq_none.mpr (by decide +kernel)
  exact ⟨.absent bare, ⟨nofun, nofun, nofun, nofun⟩, by decide +kernel, by decide +kernel⟩

end SmaliReport.Settings
