import SmaliReport.Proofs.FileSystem.Change
import SmaliReport.Proofs.FileSystem.Running

/-!
Making a directory with those above it. However it ends, nothing is new but directories, each where
the path or a part of it leads. As long as no `..` leaves a directory that has to be made first,
these are the places on the way to the end, and the end is where the path led before if it led
anywhere.
-/

namespace SmaliReport.FileSystem

/-- No `..` comes behind a name that leads to no directory. -/
def Settled (fs : FileSystem) : Place → List Name → Prop
  | _, [] => True
  | place, name :: rest =>
    if name = Path.dots then Settled fs place.dropLast rest
    else if fs.kind? (place ++ [name]) = some .dir then Settled fs (place ++ [name]) rest
    else Path.dots ∉ rest

theorem settled_of_down (fs : FileSystem) (place : Place) (names : List Name)
    (down : Path.dots ∉ names) : Settled fs place names := by
  induction names generalizing place with
  | nil => trivial
  | cons name rest ih =>
    rw [List.mem_cons, not_or] at down
    rw [Settled, if_neg (Ne.symm down.1)]
    split
    · exact ih _ down.2
    · exact down.2

/-- The directories made on the way to a place. -/
structure Made (fs later : FileSystem) (path : Path) (place : Place) : Prop where
  here : later.here = fs.here
  reaches : later.Reaches path place
  dir : later.kind? place = some .dir
  kinds : ∀ q, later.kind? q = fs.kind? q ∨
    (fs.kind? q = none ∧ later.kind? q = some .dir ∧ q <+: place)

variable {fs later : FileSystem}

/-- Nothing differs but directories that are new. -/
structure Adds (fs later : FileSystem) : Prop where
  here : later.here = fs.here
  kinds : ∀ q, later.kind? q = fs.kind? q ∨ (fs.kind? q = none ∧ later.kind? q = some .dir)

theorem Adds.plain (adds : Adds fs later) (plain : Plain fs) : Plain later := by
  intro q target
  rcases adds.kinds q with same | ⟨_, dir⟩
  · rw [same]
    exact plain q target
  · simp [dir]

theorem Adds.keeps (adds : Adds fs later) : Keeps fs later where
  here := adds.here
  dirs q dir := by
    rcases adds.kinds q with same | ⟨_, there⟩
    · rw [same, dir]
    · exact there
  files q bytes file := by
    rcases adds.kinds q with same | ⟨missing, _⟩
    · exact ⟨bytes, same.trans file⟩
    · rw [missing] at file
      cases file

theorem Made.adds {path : Path} {place : Place} (made : Made fs later path place) :
    Adds fs later where
  here := made.here
  kinds q := by
    rcases made.kinds q with same | ⟨missing, dir, _⟩
    · exact .inl same
    · exact .inr ⟨missing, dir⟩

theorem settled_append (names more : List Name) (place : Place)
    (settled : Settled fs place (names ++ more)) : Settled fs place names := by
  induction names generalizing place with
  | nil => trivial
  | cons name rest ih =>
    simp only [List.cons_append, Settled] at settled ⊢
    split
    · rename_i dots
      rw [if_pos dots] at settled
      exact ih _ settled
    · rename_i dots
      rw [if_neg dots] at settled
      split
      · rename_i dir
        rw [if_pos dir] at settled
        exact ih _ settled
      · rename_i dir
        rw [if_neg dir] at settled
        exact fun member => settled (List.mem_append_left more member)

/-- A way that ends by leaving a directory has nothing missing on it. -/
theorem go_settled {steps : List Name} {place : Place} (dir : fs.kind? place = some .dir)
    (settled : Settled fs place (steps.filter (· ≠ Path.dot)))
    (leaves : (steps.filter (· ≠ Path.dot)).getLastD Path.dots = Path.dots) :
    go fs.kind? place steps ≠ .error .notFound := by
  induction steps generalizing place with
  | nil => simp
  | cons name rest ih =>
    rw [go_cons]
    by_cases dot : name = Path.dot
    · rw [List.filter_cons_of_neg (by simpa using dot)] at settled leaves
      simp only [step, dir, if_pos dot]
      exact ih dir settled leaves
    · rw [List.filter_cons_of_pos (by simpa using dot)] at settled leaves
      rw [List.getLastD_cons] at leaves
      simp only [step, dir, if_neg dot]
      simp only [Settled] at settled
      by_cases dots : name = Path.dots
      · simp only [if_pos dots] at settled ⊢
        rw [dots] at leaves
        exact ih (kind?_dropLast fs place dir) settled leaves
      · simp only [if_neg dots] at settled ⊢
        split
        · simp [bind, Except.bind]
        · cases later : rest.filter (· ≠ Path.dot) with
          | nil =>
            rw [later] at leaves
            exact absurd leaves dots
          | cons second others =>
            rw [later] at settled leaves ih
            rw [List.getLastD_cons] at leaves
            have member : Path.dots ∈ second :: others := leaves ▸ List.getLastD_mem_cons
            split at settled
            · rename_i there
              exact ih there settled (by rwa [List.getLastD_cons])
            · exact absurd member settled

theorem prefix_of_go {kinds : Place → Option Kind} {steps : List Name} {place last : Place}
    (up : Path.dots ∉ steps) (arrives : go kinds place steps = .ok last) : place <+: last := by
  induction steps generalizing place with
  | nil => exact (Except.ok.inj arrives) ▸ List.prefix_refl place
  | cons name rest ih =>
    obtain ⟨next, taken, arrives⟩ := (go_cons_ok_iff _ _ _ _).mp arrives
    rw [List.mem_cons, not_or] at up
    have onward := ih up.2 arrives
    rcases step_ok_cases taken with ⟨_, rfl⟩ | ⟨dots, _⟩ | ⟨_, _, _, rfl⟩
    · exact onward
    · exact absurd dots.symm up.1
    · exact (List.prefix_append place [name]).trans onward

theorem prefix_of_front {kinds : Place → Option Kind} {front names : List Name}
    {place q last : Place} (down : Path.dots ∉ names) (part : front <+: names)
    (arrives : go kinds place names = .ok last) (leads : go kinds place front = .ok q) :
    q <+: last := by
  obtain ⟨rest, rfl, onward⟩ := go_rest part arrives leads
  exact prefix_of_go (fun member => down (List.mem_append_right front member)) onward

/-- Where a path leads after directories were made, it led before, or nothing was there. -/
theorem go_earlier (plain : Plain fs) (keeps : Keeps fs later) {steps : List Name}
    {place last : Place} (dir : fs.kind? place = some .dir)
    (settled : Settled fs place (steps.filter (· ≠ Path.dot)))
    (arrives : go later.kind? place steps = .ok last) :
    go fs.kind? place steps = .ok last ∨ fs.kind? last = none := by
  induction steps generalizing place with
  | nil => exact .inl arrives
  | cons name rest ih =>
    obtain ⟨next, taken, onward⟩ := (go_cons_ok_iff _ _ _ _).mp arrives
    have taken_before := (step_dirs (keeps.dirs place dir) dir).trans taken
    have extend (before : go fs.kind? next rest = .ok last ∨ fs.kind? last = none) :
        go fs.kind? place (name :: rest) = .ok last ∨ fs.kind? last = none :=
      before.imp (fun before => (go_cons_ok_iff _ _ _ _).mpr ⟨next, taken_before, before⟩) id
    rcases step_ok_cases taken with ⟨dot, rfl⟩ | ⟨dots, rfl⟩ | ⟨dot, dots, _, rfl⟩
    · rw [List.filter_cons_of_neg (by simpa using dot)] at settled
      exact extend (ih dir settled onward)
    · have undotted : name ≠ Path.dot := dots ▸ by decide
      rw [List.filter_cons_of_pos (by simpa using undotted), Settled, if_pos dots] at settled
      exact extend (ih (kind?_dropLast fs place dir) settled onward)
    · rw [List.filter_cons_of_pos (by simpa using dot), Settled, if_neg dots] at settled
      split at settled
      · rename_i there
        exact extend (ih there settled onward)
      · rename_i no_dir
        cases rest with
        | nil => exact extend (.inl onward)
        | cons second rest =>
          right
          have missing : fs.kind? (place ++ [name]) = none := by
            cases kind : fs.kind? (place ++ [name]) with
            | none => rfl
            | some kind_there =>
              cases kind_there with
              | dir => exact absurd kind no_dir
              | link target => exact absurd kind (plain _ target)
              | file bytes =>
                obtain ⟨bytes, file⟩ := keeps.files _ bytes kind
                obtain ⟨_, taken, _⟩ := (go_cons_ok_iff _ _ _ _).mp onward
                have := step_ok_dir taken
                rw [file] at this
                cases this
          have up : Path.dots ∉ second :: rest := by
            intro member
            exact settled (List.mem_filter.mpr ⟨member, by decide⟩)
          obtain ⟨more, rfl⟩ := prefix_of_go up onward
          cases more with
          | nil => simpa using missing
          | cons first more => exact kind?_below fs _ _ (by simp) (by simp [missing])

theorem Reaches.start_dir {path : Path} {place : Place} (reaches : fs.Reaches path place) :
    fs.kind? (fs.start path) = some .dir := by
  have arrives := reaches.arrives
  cases steps : Path.steps path with
  | nil => exact absurd steps (Path.steps_ne_nil path reaches.given)
  | cons name rest =>
    rw [steps] at arrives
    obtain ⟨_, taken, _⟩ := (go_cons_ok_iff _ _ _ _).mp arrives
    exact step_ok_dir taken

theorem makeDir_notFound (plain : Plain fs) {path : Path} (tidy : Path.Tidy path)
    (given : path ≠ []) (missing : fs.makeDir path = .error .notFound) :
    go fs.kind? (fs.start path) (Path.steps path) = .error .notFound := by
  have bare := tidy_bare tidy
  unfold makeDir at missing
  simp only at bare
  simp only [bare, free] at missing
  cases located : fs.locate false path with
  | error e =>
    rw [located] at missing
    cases missing
    exact locate_notFound plain false path given located
  | ok arrival =>
    simp only [located, bind, Except.bind] at missing
    split at missing
    · rename_i freed
      split at freed <;> cases freed
      cases missing
    · cases missing

theorem run_ensureDir_cases {path : Path} {result : Except FileError Unit}
    (ran : (ensureDir path).run fs = (result, later)) :
    (result = .ok () ∧ fs.makeDir path = .ok later) ∨
      (later = fs ∧ (result = .ok () → fs.isDir path = true)) := by
  simp only [ensureDir, run_bind, run_get] at ran
  cases made : fs.makeDir path with
  | ok mid =>
    rw [made] at ran
    cases ran
    exact .inl ⟨rfl, rfl⟩
  | error e =>
    simp only [made, run_bind, run_get] at ran
    cases dir : fs.isDir path with
    | true =>
      rw [dir] at ran
      cases ran
      exact .inr ⟨rfl, fun _ => rfl⟩
    | false =>
      rw [dir] at ran
      cases ran
      exact .inr ⟨rfl, nofun⟩

theorem runs_ensureDir_cases {path : Path} (ran : Runs (ensureDir path) fs () later) :
    fs.makeDir path = .ok later ∨ (fs.isDir path = true ∧ later = fs) := by
  rcases run_ensureDir_cases ran with ⟨_, made⟩ | ⟨same, dir⟩
  · exact .inl made
  · exact .inr ⟨dir rfl, same⟩

/-- What a run has done: it made no more than the directory itself; or the directory has no parent
to make first; or it made the parent first, if it could. -/
theorem makeDirsUpTo_cases {depth : Nat} {path : Path} {result : Except FileError Unit}
    (ran : (makeDirsUpTo depth path).run fs = (result, later)) :
    (ensureDir path).run fs = (result, later) ∨
      (fs.makeDir path = .error .notFound ∧
        ((result = .error .notFound ∧ later = fs) ∨
          ∃ smaller above, depth = smaller + 1 ∧ Path.parent? path = some above ∧ above ≠ [] ∧
            ((∃ e, (makeDirsUpTo smaller above).run fs = (.error e, later) ∧ result = .error e) ∨
              ∃ mid, Runs (makeDirsUpTo smaller above) fs () mid ∧
                (ensureDir path).run mid = (result, later)))) := by
  cases depth with
  | zero => exact .inl ran
  | succ smaller =>
    simp only [makeDirsUpTo, run_bind, run_get] at ran
    split at ran
    · rename_i missing _
      cases ran
      exact .inr ⟨missing, .inl ⟨rfl, rfl⟩⟩
    · rename_i above missing parent
      by_cases root : above = []
      · rw [if_neg (by simpa using root)] at ran
        exact .inl ran
      · rw [if_pos root] at ran
        refine .inr ⟨missing, .inr ⟨smaller, above, rfl, parent, root, ?_⟩⟩
        rcases run_bind_cases ran with failed | ⟨_, mid, up, last⟩
        · exact .inl failed
        · exact .inr ⟨mid, up, last⟩
    · exact .inl ran

theorem runs_makeDirsUpTo_cases {depth : Nat} {path : Path}
    (ran : Runs (makeDirsUpTo depth path) fs () later) :
    Runs (ensureDir path) fs () later ∨
      (fs.makeDir path = .error .notFound ∧ ∃ smaller above mid, depth = smaller + 1 ∧
        Path.parent? path = some above ∧ above ≠ [] ∧
        Runs (makeDirsUpTo smaller above) fs () mid ∧ Runs (ensureDir path) mid () later) := by
  rcases makeDirsUpTo_cases ran with
    once | ⟨missing, ⟨failed, _⟩ | ⟨smaller, above, length, parent, given, up⟩⟩
  · exact .inl once
  · cases failed
  · rcases up with ⟨_, _, failed⟩ | ⟨mid, up, last⟩
    · cases failed
    · exact .inr ⟨missing, smaller, above, mid, length, parent, given, up, last⟩

/-- What is new are directories, where the path leads or where it leads with fewer names. -/
structure Grown (fs later : FileSystem) (path : Path) : Prop where
  here : later.here = fs.here
  kinds : ∀ q, later.kind? q = fs.kind? q ∨
    (fs.kind? q = none ∧ later.kind? q = some .dir ∧
      (later.Reaches path q ∨ ∃ front, front <+: (Path.names path).dropLast ∧
        go later.kind? (fs.start path) front = .ok q))

theorem Grown.refl (fs : FileSystem) (path : Path) : Grown fs fs path := ⟨rfl, fun _ => .inl rfl⟩

theorem Grown.adds {path : Path} (grown : Grown fs later path) : Adds fs later where
  here := grown.here
  kinds q := by
    rcases grown.kinds q with same | ⟨missing, dir, _⟩
    · exact .inl same
    · exact .inr ⟨missing, dir⟩

theorem Grown.trans {mid : FileSystem} {path : Path} (first : Grown fs mid path)
    (second : Grown mid later path) : Grown fs later path where
  here := second.here.trans first.here
  kinds q := by
    have start : mid.start path = fs.start path := first.adds.keeps.start path
    have keeps := second.adds.keeps
    rcases second.kinds q with same | ⟨missing, dir, leads⟩
    · rw [same]
      rcases first.kinds q with before | ⟨missing, dir, reaches | ⟨front, part, way⟩⟩
      · exact .inl before
      · exact .inr ⟨missing, dir, .inl (keeps.reaches reaches)⟩
      · exact .inr ⟨missing, dir, .inr ⟨front, part, go_mono keeps.dirs way⟩⟩
    · rw [start] at leads
      rcases first.kinds q with same | ⟨_, there, _⟩
      · exact .inr ⟨same ▸ missing, dir, leads⟩
      · rw [there] at missing
        cases missing

/-- Where the parent leads, the path leads with all names but its last. -/
theorem Grown.of_parent {path above : Path} (parent : Path.parent? path = some above)
    (given : above ≠ []) (grown : Grown fs later above) : Grown fs later path where
  here := grown.here
  kinds q := by
    obtain ⟨_, names, _, start⟩ := Path.parent?_spec parent
    have same : fs.start above = fs.start path := by simp only [FileSystem.start, start given]
    rcases grown.kinds q with before | ⟨missing, dir, reaches | ⟨front, part, way⟩⟩
    · exact .inl before
    · have way := go_without_dots reaches.arrives
      rw [Path.steps_without_dots, names, grown.adds.keeps.start above, same] at way
      exact .inr ⟨missing, dir, .inr ⟨_, List.prefix_refl _, way⟩⟩
    · rw [same] at way
      have shorter := names ▸ part.trans (List.dropLast_prefix _)
      exact .inr ⟨missing, dir, .inr ⟨front, shorter, way⟩⟩

theorem ensureDir_grown (plain : Plain fs) {path : Path} (tidy : Path.Tidy path)
    {result : Except FileError Unit} (ran : (ensureDir path).run fs = (result, later)) :
    Grown fs later path ∧
      (result = .ok () → ∃ place, later.Reaches path place ∧ later.kind? place = some .dir) := by
  rcases run_ensureDir_cases ran with ⟨rfl, made⟩ | ⟨rfl, dir⟩
  · obtain ⟨place, reaches, missing, sets⟩ := makeDir_sets plain tidy made
    have leads := (sets.keeps_dir missing).reaches reaches
    refine ⟨⟨sets.here, fun q => ?_⟩, fun _ => ⟨place, leads, by simp [sets.kinds]⟩⟩
    rw [sets.kinds q]
    split
    · rename_i same
      exact .inr ⟨same ▸ missing, rfl, .inl (same ▸ leads)⟩
    · exact .inl rfl
  · exact ⟨.refl later path, fun ended => (isDir_iff plain path).mp (dir ended)⟩

theorem makeDirsUpTo_grown (depth : Nat) {path : Path} (tidy : Path.Tidy path) (plain : Plain fs)
    {result : Except FileError Unit} (ran : (makeDirsUpTo depth path).run fs = (result, later)) :
    Grown fs later path ∧
      (result = .ok () → ∃ place, later.Reaches path place ∧ later.kind? place = some .dir) := by
  induction depth generalizing later path result with
  | zero =>
    rcases makeDirsUpTo_cases ran with once | ⟨_, ⟨rfl, rfl⟩ | ⟨_, _, deeper, _⟩⟩
    · exact ensureDir_grown plain tidy once
    · exact ⟨.refl later path, nofun⟩
    · cases deeper
  | succ depth ih =>
    rcases makeDirsUpTo_cases ran with
      once | ⟨_, ⟨rfl, rfl⟩ | ⟨smaller, above, length, parent, given, up⟩⟩
    · exact ensureDir_grown plain tidy once
    · exact ⟨.refl later path, nofun⟩
    · cases length
      have tidy_above := (Path.parent?_spec parent).2.2.1
      rcases up with ⟨e, failed, rfl⟩ | ⟨mid, up, last⟩
      · exact ⟨(ih tidy_above failed).1.of_parent parent given, nofun⟩
      · have grown := (ih tidy_above up).1.of_parent parent given
        obtain ⟨once, ended⟩ := ensureDir_grown (grown.adds.plain plain) tidy last
        exact ⟨grown.trans once, ended⟩

theorem made_once (plain : Plain fs) {path : Path} (tidy : Path.Tidy path)
    (ran : Runs (ensureDir path) fs () later) : ∃ place, Made fs later path place := by
  rcases runs_ensureDir_cases ran with made | ⟨dir, rfl⟩
  · obtain ⟨place, reaches, missing, sets⟩ := makeDir_sets plain tidy made
    refine ⟨place, sets.here, (sets.keeps_dir missing).reaches reaches, by simp [sets.kinds], ?_⟩
    intro q
    rw [sets.kinds q]
    split
    · rename_i same
      exact .inr ⟨same ▸ missing, rfl, same ▸ List.prefix_refl q⟩
    · exact .inl rfl
  · obtain ⟨place, reaches, dir⟩ := (isDir_iff plain path).mp dir
    exact ⟨place, rfl, reaches, dir, fun _ => .inl rfl⟩

/-- What was made on the way to the parent lies on the way to the path. -/
theorem Made.below {mid : FileSystem} {path : Path} {above place : Place} {front : List Name}
    {name : Name} (made : Made mid later path place) (here : mid.here = fs.here)
    (kinds : ∀ q, mid.kind? q = fs.kind? q ∨
      (fs.kind? q = none ∧ mid.kind? q = some .dir ∧ q <+: above))
    (dot : name ≠ Path.dot) (dots : name ≠ Path.dots) (names : Path.names path = front ++ [name])
    (way : go mid.kind? (mid.start path) front = .ok above) : Made fs later path place := by
  have start : later.start path = mid.start path := by simp only [FileSystem.start, made.here]
  have whole := go_without_dots made.reaches.arrives
  rw [Path.steps_without_dots, names, start] at whole
  obtain ⟨up, first, taken⟩ := (go_concat_ok_iff _ _ _ _).mp whole
  obtain rfl : above = up := Except.ok.inj ((go_mono made.adds.keeps.dirs way).symm.trans first)
  obtain rfl : place = above ++ [name] := step_named dot dots taken
  refine ⟨made.here.trans here, made.reaches, made.dir, fun q => ?_⟩
  rcases made.kinds q with same | ⟨missing, dir, on_way⟩
  · rw [same]
    rcases kinds q with same | ⟨missing, dir, on_way⟩
    · exact .inl same
    · exact .inr ⟨missing, dir, on_way.trans (List.prefix_append above [name])⟩
  · rcases kinds q with same | ⟨_, there, _⟩
    · exact .inr ⟨same ▸ missing, dir, on_way⟩
    · rw [there] at missing
      cases missing

theorem makeDirsUpTo_made (depth : Nat) {path : Path} (tidy : Path.Tidy path) (given : path ≠ [])
    (plain : Plain fs) (start : fs.kind? (fs.start path) = some .dir)
    (settled : Settled fs (fs.start path) (Path.names path))
    (ran : Runs (makeDirsUpTo depth path) fs () later) : ∃ place, Made fs later path place := by
  induction depth generalizing later path with
  | zero =>
    rcases runs_makeDirsUpTo_cases ran with once | ⟨_, _, _, _, deeper, _⟩
    · exact made_once plain tidy once
    · cases deeper
  | succ depth ih =>
    rcases runs_makeDirsUpTo_cases ran with
      once | ⟨missing, smaller, above, mid, length, parent, given_above, up, last⟩
    · exact made_once plain tidy once
    · cases length
      obtain ⟨nonempty, names_above, tidy_above, start_above⟩ := Path.parent?_spec parent
      have split := (List.dropLast_concat_getLast nonempty).symm
      have settled_above : Settled fs (fs.start path) (Path.names path).dropLast := by
        rw [split] at settled
        exact settled_append _ _ _ settled
      -- a last name that leaves a directory would leave one that is there
      have dots : (Path.names path).getLast nonempty ≠ Path.dots := by
        intro dots
        refine go_settled start ?_ ?_ (makeDir_notFound plain tidy given missing)
        · rwa [Path.steps_without_dots]
        · rw [Path.steps_without_dots, List.getLastD_eq_getLast?,
            List.getLast?_eq_some_getLast nonempty, dots]
          rfl
      have dot := (Path.mem_names (List.getLast_mem nonempty)).2.2
      have same : fs.start above = fs.start path := by
        simp only [FileSystem.start, start_above given_above]
      obtain ⟨above_place, made⟩ := ih tidy_above given_above (same ▸ start)
        (by rwa [same, names_above]) up
      have way := go_without_dots made.reaches.arrives
      have start_mid : mid.start above = mid.start path := by
        simp only [FileSystem.start, start_above given_above]
      rw [Path.steps_without_dots, names_above, start_mid] at way
      obtain ⟨place, last_made⟩ := made_once (made.adds.plain plain) tidy last
      exact ⟨place, last_made.below made.here made.kinds dot dots split way⟩

theorem ensureDir_reaches (plain : Plain fs) {path : Path} (tidy : Path.Tidy path)
    (ran : Runs (ensureDir path) fs () later) : ∃ place, fs.Reaches path place := by
  rcases runs_ensureDir_cases ran with made | ⟨dir, _⟩
  · obtain ⟨place, reaches, _⟩ := makeDir_sets plain tidy made
    exact ⟨place, reaches⟩
  · obtain ⟨place, reaches, _⟩ := (isDir_iff plain path).mp dir
    exact ⟨place, reaches⟩

theorem makeDirsUpTo_start (depth : Nat) {path : Path} (tidy : Path.Tidy path) (given : path ≠ [])
    (plain : Plain fs) (ran : Runs (makeDirsUpTo depth path) fs () later) :
    fs.kind? (fs.start path) = some .dir := by
  have once {path : Path} {later : FileSystem} (tidy : Path.Tidy path)
      (ran : Runs (ensureDir path) fs () later) : fs.kind? (fs.start path) = some .dir := by
    obtain ⟨_, reaches⟩ := ensureDir_reaches plain tidy ran
    exact reaches.start_dir
  induction depth generalizing later path with
  | zero =>
    rcases runs_makeDirsUpTo_cases ran with ran | ⟨_, _, _, _, deeper, _⟩
    · exact once tidy ran
    · cases deeper
  | succ depth ih =>
    rcases runs_makeDirsUpTo_cases ran with
      ran | ⟨_, smaller, above, mid, length, parent, given_above, up, _⟩
    · exact once tidy ran
    · cases length
      obtain ⟨_, _, tidy_above, start_above⟩ := Path.parent?_spec parent
      have start := ih tidy_above given_above up
      simpa only [FileSystem.start, start_above given_above] using start

/-- A directory that was not there is empty once it is made, and all else is as before but for
directories on the way to it. -/
theorem makeDirs_new {path : Path} (tidy : Path.Tidy path) (given : path ≠ []) (plain : Plain fs)
    (settled : Settled fs (fs.start path) (Path.names path)) (absent : fs.has path = false)
    (ran : Runs (makeDirs path) fs () later) :
    ∃ place, Made fs later path place ∧ fs.kind? place = none := by
  rw [makeDirs, if_neg given] at ran
  have start := makeDirsUpTo_start _ tidy given plain ran
  obtain ⟨place, made⟩ := makeDirsUpTo_made _ tidy given plain start settled ran
  refine ⟨place, made, ?_⟩
  have keeps := made.adds.keeps
  have arrives := made.reaches.arrives
  rw [keeps.start path] at arrives
  rw [← Path.steps_without_dots] at settled
  rcases go_earlier plain keeps start settled arrives with before | missing
  · cases kind : fs.kind? place with
    | none => rfl
    | some kind_there =>
      have found := (has_iff plain path).mpr
        ⟨place, ⟨made.reaches.nul, given, made.reaches.fits, before⟩, by simp [kind]⟩
      rw [absent] at found
      cases found
  · exact missing

end SmaliReport.FileSystem
