import SmaliReport.Proofs.FileSystem.Kinds
import SmaliReport.Proofs.FileSystem.Names

/-!
Paths in a file system without links. A path is then walked name by name, and where it leads
depends on what lies at which place alone, not on how deep links may be nested.
-/

namespace SmaliReport.FileSystem

/-- One name further, from a place that must be a directory. -/
def step (kinds : Place → Option Kind) (place : Place) (name : Name) : Except FileError Place :=
  match kinds place with
  | none => .error .notFound
  | some .dir =>
    if name = Path.dot then .ok place
    else if name = Path.dots then .ok place.dropLast
    else if 255 < name.length then .error .nameTooLong
    else .ok (place ++ [name])
  | some _ => .error .notDirectory

def go (kinds : Place → Option Kind) (place : Place) (names : List Name) : Except FileError Place :=
  names.foldlM (step kinds) place

def Plain (fs : FileSystem) : Prop := ∀ place target, fs.kind? place ≠ some (.link target)

def start (fs : FileSystem) (path : Path) : Place := if Path.isAbsolute path then [] else fs.here

/-- The path is accepted and leads to the place, whether or not something is there. -/
structure Reaches (fs : FileSystem) (path : Path) (place : Place) : Prop where
  nul : 0 ∉ path
  given : path ≠ []
  fits : Path.fits path
  arrives : go fs.kind? (fs.start path) (Path.steps path) = .ok place

variable {kinds : Place → Option Kind}

@[simp] theorem go_nil (place : Place) : go kinds place [] = .ok place := rfl

theorem go_cons (place : Place) (name : Name) (rest : List Name) :
    go kinds place (name :: rest) = step kinds place name >>= fun next => go kinds next rest := rfl

theorem go_append (place : Place) (names more : List Name) :
    go kinds place (names ++ more) = go kinds place names >>= fun next => go kinds next more :=
  List.foldlM_append

theorem go_append_ok_iff (place last : Place) (names more : List Name) :
    go kinds place (names ++ more) = .ok last ↔
      ∃ mid, go kinds place names = .ok mid ∧ go kinds mid more = .ok last := by
  rw [go_append]
  cases go kinds place names with
  | error e => simp [bind, Except.bind]
  | ok mid => simp [bind, Except.bind]

theorem go_cons_ok_iff (place last : Place) (name : Name) (rest : List Name) :
    go kinds place (name :: rest) = .ok last ↔
      ∃ next, step kinds place name = .ok next ∧ go kinds next rest = .ok last := by
  rw [go_cons]
  cases step kinds place name with
  | error e => simp [bind, Except.bind]
  | ok next => simp [bind, Except.bind]

theorem step_ok_dir {place next : Place} {name : Name} (taken : step kinds place name = .ok next) :
    kinds place = some .dir := by
  unfold step at taken
  split at taken
  · cases taken
  · assumption
  · cases taken

/-- Of the place that it starts from, a step sees only that it is a directory. -/
theorem step_dirs {others : Place → Option Kind} {place : Place} {name : Name}
    (dir : kinds place = some .dir) (dir_other : others place = some .dir) :
    step others place name = step kinds place name := by
  simp only [step, dir, dir_other]

theorem step_ok_cases {place next : Place} {name : Name}
    (taken : step kinds place name = .ok next) :
    (name = Path.dot ∧ next = place) ∨ (name = Path.dots ∧ next = place.dropLast) ∨
      (name ≠ Path.dot ∧ name ≠ Path.dots ∧ name.length ≤ 255 ∧
        next = place ++ [name]) := by
  simp only [step, step_ok_dir taken] at taken
  split at taken
  · exact .inl ⟨‹_›, (Except.ok.inj taken).symm⟩
  · split at taken
    · exact .inr (.inl ⟨‹_›, (Except.ok.inj taken).symm⟩)
    · split at taken
      · cases taken
      · exact .inr (.inr ⟨‹_›, ‹_›, by omega, (Except.ok.inj taken).symm⟩)

theorem step_named {place next : Place} {name : Name} (dot : name ≠ Path.dot)
    (dots : name ≠ Path.dots) (taken : step kinds place name = .ok next) :
    next = place ++ [name] := by
  rcases step_ok_cases taken with ⟨same, _⟩ | ⟨same, _⟩ | ⟨_, _, _, same⟩
  · exact absurd same dot
  · exact absurd same dots
  · exact same

theorem go_concat_ok_iff (place last : Place) (names : List Name) (name : Name) :
    go kinds place (names ++ [name]) = .ok last ↔
      ∃ above, go kinds place names = .ok above ∧ step kinds above name = .ok last := by
  rw [go_append_ok_iff]
  constructor
  · rintro ⟨above, way, last⟩
    obtain ⟨next, taken, ended⟩ := (go_cons_ok_iff _ _ _ _).mp last
    cases ended
    exact ⟨above, way, taken⟩
  · rintro ⟨above, way, taken⟩
    exact ⟨above, way, (go_cons_ok_iff _ _ _ _).mpr ⟨last, taken, rfl⟩⟩

theorem step_proper {place : Place} {name : Name} (dir : kinds place = some .dir)
    (proper : Node.ProperName name) : step kinds place name = .ok (place ++ [name]) := by
  have short : ¬255 < name.length := by
    have := proper.short
    omega
  simp only [step, dir, if_neg proper.dot, if_neg proper.dots, if_neg short]

/-- A way that goes on behind some of its names goes on from where these end. -/
theorem go_rest {place q last : Place} {front names : List Name} (part : front <+: names)
    (arrives : go kinds place names = .ok last) (leads : go kinds place front = .ok q) :
    ∃ rest, names = front ++ rest ∧ go kinds q rest = .ok last := by
  obtain ⟨rest, rfl⟩ := part
  obtain ⟨mid, first, onward⟩ := (go_append_ok_iff _ _ _ _).mp arrives
  obtain rfl := Except.ok.inj (first.symm.trans leads)
  exact ⟨rest, rfl, onward⟩

/-- Where a way ends is said by its names alone, if it ends. -/
theorem go_lexical {others : Place → Option Kind} {names : List Name} {place a b : Place}
    (first : go kinds place names = .ok a) (second : go others place names = .ok b) : a = b := by
  induction names generalizing place with
  | nil => exact (Except.ok.inj first).symm.trans (Except.ok.inj second)
  | cons name rest ih =>
    obtain ⟨next, taken, first⟩ := (go_cons_ok_iff _ _ _ _).mp first
    obtain ⟨other, taken_other, second⟩ := (go_cons_ok_iff _ _ _ _).mp second
    have same := (step_dirs (step_ok_dir taken) (step_ok_dir taken_other)).trans taken
    rw [taken_other] at same
    exact ih first (Except.ok.inj same ▸ second)

/-- A way stays open if the directories that it goes through stay. -/
theorem go_kept {others : Place → Option Kind} {names : List Name} {place last : Place}
    (arrives : go kinds place names = .ok last)
    (kept : ∀ front q, front <+: names → go kinds place front = .ok q → kinds q = some .dir →
      others q = some .dir) : go others place names = .ok last := by
  induction names generalizing place with
  | nil => exact arrives
  | cons name rest ih =>
    obtain ⟨next, taken, onward⟩ := (go_cons_ok_iff _ _ _ _).mp arrives
    have dir := step_ok_dir taken
    have dir_other := kept [] place List.nil_prefix rfl dir
    have taken_other := (step_dirs dir dir_other).trans taken
    refine (go_cons_ok_iff _ _ _ _).mpr ⟨next, taken_other, ih onward fun front q part way => ?_⟩
    exact kept (name :: front) q (List.cons_prefix_cons.mpr ⟨rfl, part⟩)
      ((go_cons_ok_iff _ _ _ _).mpr ⟨next, taken, way⟩)

/-- Directories that stay keep every way through them open. -/
theorem go_mono {later : Place → Option Kind}
    (kept : ∀ place, kinds place = some .dir → later place = some .dir) {place last : Place}
    {names : List Name} (arrives : go kinds place names = .ok last) :
    go later place names = .ok last :=
  go_kept arrives fun _ q _ _ dir => kept q dir

theorem go_without_dots {place last : Place} {names : List Name}
    (arrives : go kinds place names = .ok last) :
    go kinds place (names.filter (· ≠ Path.dot)) = .ok last := by
  induction names generalizing place with
  | nil => exact arrives
  | cons name rest ih =>
    obtain ⟨next, taken, later⟩ := (go_cons_ok_iff place last name rest).mp arrives
    by_cases dot : name = Path.dot
    · rw [List.filter_cons_of_neg (by simpa using dot)]
      rcases step_ok_cases taken with ⟨_, rfl⟩ | ⟨rfl, _⟩ | ⟨differs, _⟩
      · exact ih later
      · cases dot
      · exact absurd dot differs
    · rw [List.filter_cons_of_pos (by simpa using dot)]
      exact (go_cons_ok_iff _ _ _ _).mpr ⟨next, taken, ih later⟩

theorem find_of_isDir {fs : FileSystem} {path : Path} (dir : fs.isDir path = true) :
    ∃ arrival entries, fs.find path = .ok (arrival, .dir entries) := by
  unfold isDir at dir
  split at dir
  · rename_i arrival entries found
    exact ⟨arrival, entries, found⟩
  · cases dir

section Links

variable {fs : FileSystem} (plain : Plain fs)

include plain

theorem walk_plain (through : Bool) (links : Nat)
    (onLink : Place → List Name → Except FileError Arrival) (place : Place) (names : List Name) :
    fs.walk through links onLink place names =
      (go fs.kind? place names).map fun place => ⟨place, links⟩ := by
  induction names generalizing place with
  | nil => rfl
  | cons name rest ih =>
    rw [walk, go_cons, step, kind?]
    cases there : fs.node? place with
    | none => rfl
    | some node =>
      cases node with
      | file bytes => rfl
      | link target => exact absurd (by rw [kind?, there]; rfl) (plain place target)
      | dir entries =>
        simp only [Option.map_some, Node.kind]
        split
        · exact ih place
        · split
          · exact ih place.dropLast
          · split
            · rfl
            · have below : fs.node? (place ++ [name]) = entries.lookup name := by
                rw [node?, Node.at?_append, ← node?, there]
                exact Node.at?_child entries name
              have here := plain (place ++ [name])
              rw [kind?, below] at here
              cases found : entries.lookup name with
              | none =>
                rw [found] at below
                cases rest with
                | nil => rfl
                | cons next rest =>
                  simp only [List.isEmpty_cons, bind, Except.bind, go_cons, step, kind?, below]
                  rfl
              | some node =>
                rw [found] at here
                cases node with
                | link target => exact absurd rfl (here target)
                | file bytes => exact ih (place ++ [name])
                | dir inner => exact ih (place ++ [name])

theorem follow_plain (through : Bool) (links : Nat) (place : Place) (names : List Name) :
    fs.follow through links place names =
      (go fs.kind? place names).map fun place => ⟨place, links⟩ := by
  cases links with
  | zero => exact walk_plain plain through 0 _ place names
  | succ links => exact walk_plain plain through (links + 1) _ place names

theorem locate_ok_iff (through : Bool) (path : Path) (arrival : Arrival) :
    fs.locate through path = .ok arrival ↔ fs.Reaches path arrival.place ∧ arrival.links = 40 := by
  rw [locate, follow_plain plain]
  constructor
  · intro located
    split at located
    · cases located
    · split at located
      · cases located
      · split at located
        · cases located
        · rename_i nul given fits
          change (go fs.kind? (fs.start path) (Path.steps path)).map _ = _ at located
          cases arrives : go fs.kind? (fs.start path) (Path.steps path) with
          | error e =>
            rw [arrives] at located
            cases located
          | ok place =>
            rw [arrives] at located
            cases located
            exact ⟨⟨nul, given, by simpa using fits, arrives⟩, rfl⟩
  · rintro ⟨reaches, links⟩
    have arrives := reaches.arrives
    unfold start at arrives
    rw [if_neg reaches.nul, if_neg reaches.given, if_neg (by simp [reaches.fits]), arrives]
    cases arrival
    cases links
    rfl

/-- A path with a missing name on the way is no empty one. -/
theorem locate_notFound (through : Bool) (path : Path) (given : path ≠ [])
    (missing : fs.locate through path = .error .notFound) :
    go fs.kind? (fs.start path) (Path.steps path) = .error .notFound := by
  rw [locate, follow_plain plain, if_neg given] at missing
  split at missing
  · cases missing
  · split at missing
    · cases missing
    · change (go fs.kind? (fs.start path) (Path.steps path)).map _ = _ at missing
      cases arrives : go fs.kind? (fs.start path) (Path.steps path) with
      | error e =>
        rw [arrives] at missing
        cases missing
        rfl
      | ok place =>
        rw [arrives] at missing
        cases missing

theorem find_ok_iff (path : Path) (arrival : Arrival) (node : Node) :
    fs.find path = .ok (arrival, node) ↔
      (fs.Reaches path arrival.place ∧ arrival.links = 40) ∧
        fs.node? arrival.place = some node := by
  rw [← locate_ok_iff plain true, find]
  cases located : fs.locate true path with
  | error e => simp [bind, Except.bind]
  | ok there =>
    cases found : fs.node? there.place with
    | none =>
      simp only [bind, Except.bind, found, reduceCtorEq, Except.ok.injEq, false_iff]
      rintro ⟨rfl, absurd⟩
      rw [found] at absurd
      cases absurd
    | some there_node =>
      simp only [bind, Except.bind, found, Except.ok.injEq, Prod.mk.injEq]
      constructor
      · rintro ⟨rfl, rfl⟩
        exact ⟨rfl, found⟩
      · rintro ⟨rfl, same⟩
        exact ⟨rfl, Option.some.inj (found.symm.trans same)⟩

theorem has_iff (path : Path) :
    fs.has path = true ↔ ∃ place, fs.Reaches path place ∧ fs.kind? place ≠ none := by
  constructor
  · intro ok
    unfold has at ok
    cases found : fs.find path with
    | error e =>
      rw [found] at ok
      cases ok
    | ok pair =>
      obtain ⟨⟨reaches, _⟩, there⟩ := (find_ok_iff plain path pair.1 pair.2).mp found
      exact ⟨pair.1.place, reaches, by simp [kind?, there]⟩
  · rintro ⟨place, reaches, there⟩
    cases found : fs.node? place with
    | none => exact absurd ((kind?_eq_none_iff fs place).mpr found) there
    | some node =>
      unfold has
      rw [(find_ok_iff plain path ⟨place, 40⟩ node).mpr ⟨⟨reaches, rfl⟩, found⟩]
      rfl

theorem isDir_iff (path : Path) :
    fs.isDir path = true ↔ ∃ place, fs.Reaches path place ∧ fs.kind? place = some .dir := by
  constructor
  · intro dir
    obtain ⟨arrival, entries, found⟩ := find_of_isDir dir
    obtain ⟨⟨reaches, _⟩, there⟩ := (find_ok_iff plain path arrival (.dir entries)).mp found
    exact ⟨arrival.place, reaches, (kind?_eq_dir_iff fs _).mpr ⟨entries, there⟩⟩
  · rintro ⟨place, reaches, dir⟩
    obtain ⟨entries, there⟩ := (kind?_eq_dir_iff fs place).mp dir
    unfold isDir
    rw [(find_ok_iff plain path ⟨place, 40⟩ (.dir entries)).mpr ⟨⟨reaches, rfl⟩, there⟩]

end Links

theorem Reaches.unique {fs : FileSystem} {path : Path} {place other : Place}
    (reaches : fs.Reaches path place) (again : fs.Reaches path other) : place = other :=
  Except.ok.inj (reaches.arrives.symm.trans again.arrives)

theorem go_steps_iff {first place : Place} (path : Path) (dir : kinds place = some .dir) :
    go kinds first (Path.steps path) = .ok place ↔
      go kinds first (Path.parts path) = .ok place := by
  cases ends : [Path.slash].isSuffixOf path with
  | false => rw [Path.steps_of_no_slash path ends]
  | true =>
    rw [Path.steps, if_pos ends, ← Path.parts, go_concat_ok_iff]
    constructor
    · rintro ⟨mid, way, taken⟩
      rcases step_ok_cases taken with ⟨_, rfl⟩ | ⟨up, _⟩ | ⟨other, _⟩
      · exact way
      · cases up
      · exact absurd rfl other
    · intro way
      refine ⟨place, way, ?_⟩
      simp [step, dir]

section Join

variable {fs : FileSystem} {path : Path} {name : Name} {place : Place}

theorem start_join (path : Path) (slash : Path.slash ∉ name) :
    fs.start (Path.join path name) = fs.start path := by
  simp only [start, Path.isAbsolute_join path name slash]

/-- The path of an entry leads through the directory. -/
theorem Reaches.above (given : path ≠ []) (named : name ≠ []) (slash : Path.slash ∉ name)
    (reaches : fs.Reaches (Path.join path name) place) :
    ∃ above, fs.Reaches path above ∧ step fs.kind? above name = .ok place := by
  have arrives := reaches.arrives
  rw [start_join path slash, Path.steps_join path name named slash] at arrives
  obtain ⟨above, way, taken⟩ := (go_concat_ok_iff _ _ _ _).mp arrives
  refine ⟨above, ⟨?_, given, Path.fits_join path name slash reaches.fits, ?_⟩, taken⟩
  · intro nul
    obtain ⟨front, front_eq, shape⟩ := Path.join_shape path name slash
    refine reaches.nul (shape ▸ List.mem_append_left _ ?_)
    rcases front_eq with rfl | rfl
    · exact nul
    · exact List.mem_append_left _ nul
  · exact (go_steps_iff path (step_ok_dir taken)).mpr way

/-- An entry of a directory is reached by its path, unless that is too long. -/
theorem Reaches.below (named : Node.ProperName name) (dir : fs.kind? place = some .dir)
    (fits : Path.fits (Path.join path name)) (reaches : fs.Reaches path place) :
    fs.Reaches (Path.join path name) (place ++ [name]) := by
  obtain ⟨front, front_eq, shape⟩ := Path.join_shape path name named.slash
  refine ⟨?_, ?_, fits, ?_⟩
  · rw [shape]
    rcases front_eq with rfl | rfl <;> simp [reaches.nul, named.nul]
  · simp [shape, named.nonempty]
  · rw [start_join path named.slash, Path.steps_join path name named.nonempty named.slash]
    exact (go_concat_ok_iff _ _ _ _).mpr
      ⟨place, (go_steps_iff path dir).mp reaches.arrives, step_proper dir named⟩

end Join

end SmaliReport.FileSystem
