import SmaliReport.Proofs.FileSystem.Content

/-!
Making a directory again. Where some of the directories are that were made on the way to it the first
time, only the rest of them is made, so that both times the same is there in the end.
-/

namespace SmaliReport

namespace FileSystem

variable {fs other later last mid : FileSystem}

theorem Adds.trans (first : Adds fs mid) (second : Adds mid later) : Adds fs later where
  here := second.here.trans first.here
  kinds q := by
    rcases second.kinds q with same | ⟨missing, dir⟩
    · rw [same]
      exact first.kinds q
    · rcases first.kinds q with same | ⟨_, there⟩
      · exact .inr ⟨same ▸ missing, dir⟩
      · rw [there] at missing
        cases missing

theorem Adds.same (adds : Adds fs other) (back : Adds other fs) : SameContent fs other where
  here := adds.here
  kinds q := by
    rcases adds.kinds q with same | ⟨missing, _⟩
    · exact same
    · rcases back.kinds q with same | ⟨_, dir⟩
      · exact same.symm
      · rw [dir] at missing
        cases missing

/-- Of a place that is a directory later, nothing else was there before. -/
theorem Adds.dir_or_none (adds : Adds fs later) {place : Place}
    (dir : later.kind? place = some .dir) : fs.kind? place = some .dir ∨ fs.kind? place = none := by
  rcases adds.kinds place with same | ⟨missing, _⟩
  · exact .inl (same ▸ dir)
  · exact .inr missing

/-- What one run adds is in the other if the directories that are new in the first are. -/
theorem Adds.of_new (first : Adds fs later) (second : Adds fs other)
    (new : ∀ q, fs.kind? q = none → later.kind? q = some .dir → other.kind? q = some .dir) :
    Adds later other where
  here := second.here.trans first.here.symm
  kinds q := by
    rcases first.kinds q with same | ⟨missing, dir⟩
    · rw [same]
      exact second.kinds q
    · exact .inl ((new q missing dir).trans dir.symm)

/-- A way that is open later was open before, or a directory on it was missing. -/
theorem Adds.go (adds : Adds fs later) {names : List Name} {start place : Place}
    (arrives : go later.kind? start names = .ok place) :
    FileSystem.go fs.kind? start names = .ok place ∨
      FileSystem.go fs.kind? start names = .error .notFound := by
  induction names generalizing start with
  | nil => exact .inl arrives
  | cons name rest ih =>
    obtain ⟨next, taken, onward⟩ := (go_cons_ok_iff _ _ _ _).mp arrives
    have dir_later := step_ok_dir taken
    rcases adds.dir_or_none dir_later with dir | missing
    · rw [go_cons, (step_dirs dir_later dir).trans taken]
      exact ih onward
    · right
      rw [go_cons, step, missing]
      rfl

/-- All that a way to a directory goes through is a directory. -/
theorem dir_of_front {kinds : Place → Option Kind} {start above q : Place}
    {names front : List Name} (way : go kinds start names = .ok above)
    (dir : kinds above = some .dir) (part : front <+: names) (leads : go kinds start front = .ok q) :
    kinds q = some .dir := by
  obtain ⟨rest, rfl, onward⟩ := go_rest part way leads
  cases rest with
  | nil => exact (Except.ok.inj onward) ▸ dir
  | cons name rest =>
    obtain ⟨_, taken, _⟩ := (go_cons_ok_iff _ _ _ _).mp onward
    exact step_ok_dir taken

theorem makeDir_missing (plain : Plain fs) {path : Path} (tidy : Path.Tidy path)
    (nul : 0 ∉ path) (given : path ≠ []) (fits : Path.fits path)
    (missing : go fs.kind? (fs.start path) (Path.steps path) = .error .notFound) :
    fs.makeDir path = .error .notFound := by
  have bare := tidy_bare tidy
  have located : fs.locate false path = .error .notFound := by
    rw [locate, if_neg nul, if_neg given, if_neg (by simp [fits]), follow_plain plain]
    change (go fs.kind? (fs.start path) (Path.steps path)).map _ = _
    rw [missing]
    rfl
  simp only at bare
  simp only [makeDir, bare, free, located, bind, Except.bind]

/-- A directory is made where the path leads, unless it is there. -/
theorem ensureDir_reached (plain : Plain fs) {path : Path} (tidy : Path.Tidy path) {place : Place}
    (reaches : fs.Reaches path place) (adds : Adds fs last) (dir : last.kind? place = some .dir) :
    ∃ later, Runs (ensureDir path) fs () later ∧ Adds fs later ∧ Adds later last ∧
      later.kind? place = some .dir := by
  rcases adds.dir_or_none dir with there | missing
  · refine ⟨fs, ?_, ⟨rfl, fun _ => .inl rfl⟩, adds, there⟩
    cases made : fs.makeDir path with
    | ok later =>
      obtain ⟨other, leads, missing, _⟩ := makeDir_sets plain tidy made
      rw [leads.unique reaches, there] at missing
      cases missing
    | error e =>
      have is_dir := (isDir_iff plain path).mpr ⟨place, reaches, there⟩
      simp only [Runs, ensureDir, run_bind, run_get, made, is_dir]
      rfl
  · have made := makeDir_free plain tidy reaches missing
    have sets := free_sets plain ((free_ok_iff plain path place).mpr ⟨reaches, missing⟩)
    refine ⟨_, ?_, ⟨sets.here, fun q => ?_⟩, ⟨adds.here.trans sets.here.symm, fun q => ?_⟩, ?_⟩
    · simp only [Runs, ensureDir, run_bind, run_get, made]
      rfl
    · rw [sets.kinds]
      split
      · rename_i same
        exact .inr ⟨same ▸ missing, rfl⟩
      · exact .inl rfl
    · rw [sets.kinds]
      split
      · rename_i same
        exact .inl (same ▸ dir)
      · exact adds.kinds q
    · rw [sets.kinds, if_pos rfl]

theorem makeDirsUpTo_once {depth : Nat} {path : Path} (ran : Runs (ensureDir path) fs () later)
    (found : fs.makeDir path ≠ .error .notFound) : Runs (makeDirsUpTo depth path) fs () later := by
  cases depth with
  | zero => exact ran
  | succ depth =>
    simp only [Runs, makeDirsUpTo, run_bind, run_get]
    split
    · rename_i missing _
      exact absurd missing found
    · rename_i missing _
      exact absurd missing found
    · exact ran

theorem makeDirsUpTo_up {depth : Nat} {path above : Path}
    (missing : fs.makeDir path = .error .notFound) (parent : Path.parent? path = some above)
    (given : above ≠ []) (up : Runs (makeDirsUpTo depth above) fs () mid)
    (ran : Runs (ensureDir path) mid () later) :
    Runs (makeDirsUpTo (depth + 1) path) fs () later := by
  unfold Runs at up ran ⊢
  simp only [makeDirsUpTo, run_bind, run_get, missing, parent, if_pos given, up]
  exact ran

theorem makeDir_found (plain : Plain fs) {path : Path} (tidy : Path.Tidy path) {place : Place}
    (reaches : fs.Reaches path place) : fs.makeDir path ≠ .error .notFound := by
  intro missing
  have nowhere := makeDir_notFound plain tidy reaches.given missing
  rw [reaches.arrives] at nowhere
  cases nowhere

/-- What is new on the way that a path goes is there too once the path leads to a directory. -/
theorem Grown.new_dir {path : Path} {place : Place} (grown : Grown fs later path)
    (ends : Adds later last) (adds : Adds other last) (here : other.here = fs.here)
    (reaches : other.Reaches path place) (dir : other.kind? place = some .dir) (q : Place)
    (missing : fs.kind? q = none) (new : later.kind? q = some .dir) :
    other.kind? q = some .dir := by
  rcases grown.kinds q with same | ⟨_, _, own | ⟨front, part, way⟩⟩
  · rw [same, missing] at new
    cases new
  · exact (ends.keeps.reaches own).unique (adds.keeps.reaches reaches) ▸ dir
  · have whole := go_without_dots reaches.arrives
    have start : other.start path = fs.start path := by simp only [FileSystem.start, here]
    obtain ⟨rest, split⟩ := part.trans (List.dropLast_prefix _)
    rw [Path.steps_without_dots, ← split, start] at whole
    obtain ⟨mid, first, _⟩ := (go_append_ok_iff _ _ _ _).mp whole
    obtain rfl : mid = q := Except.ok.inj
      ((go_mono adds.keeps.dirs first).symm.trans (go_mono ends.keeps.dirs way))
    exact dir_of_front whole dir (List.prefix_append front rest) first

theorem ensureDir_between {path : Path} (tidy : Path.Tidy path) (plain : Plain other)
    {place : Place} (grown : Grown fs later path) (below : Adds fs other) (above : Adds other last)
    (ends : Adds later last) (reaches : other.Reaches path place)
    (dir : last.kind? place = some .dir) :
    ∃ again, Runs (ensureDir path) other () again ∧ Adds later again ∧ Adds again last := by
  obtain ⟨again, once, adds, adds_last, there⟩ := ensureDir_reached plain tidy reaches above dir
  have whole := below.trans adds
  exact ⟨again, once, grown.adds.of_new whole
    (grown.new_dir ends adds_last whole.here (adds.keeps.reaches reaches) there), adds_last⟩

/-- If some of what a run has made is there, only the rest of it is made. -/
theorem makeDirsUpTo_between (depth : Nat) {path : Path} (tidy : Path.Tidy path) (plain : Plain fs)
    (ran : Runs (makeDirsUpTo depth path) fs () later) (below : Adds fs other)
    (above : Adds other last) (ends : Adds later last) :
    ∃ again, Runs (makeDirsUpTo depth path) other () again ∧ Adds later again ∧
      Adds again last := by
  induction depth using Nat.strongRecOn generalizing path later with
  | ind depth ih =>
    obtain ⟨grown, ended⟩ := makeDirsUpTo_grown depth tidy plain ran
    obtain ⟨place, leads, dir⟩ := ended rfl
    have dir := ends.keeps.dirs place dir
    have leads := ends.keeps.reaches leads
    have plain_other := below.plain plain
    have arrives := leads.arrives
    rw [above.keeps.start path] at arrives
    rcases above.go arrives with arrives | missing
    · have reaches : other.Reaches path place := ⟨leads.nul, leads.given, leads.fits, arrives⟩
      obtain ⟨again, once, adds⟩ :=
        ensureDir_between tidy plain_other grown below above ends reaches dir
      exact ⟨again, makeDirsUpTo_once once (makeDir_found plain_other tidy reaches), adds⟩
    · rcases runs_makeDirsUpTo_cases ran with
        once | ⟨_, smaller, parent, mid, rfl, parent_eq, given, up, once⟩
      · obtain ⟨_, reaches⟩ := ensureDir_reaches plain tidy once
        have arrives := (below.keeps.reaches reaches).arrives
        rw [missing] at arrives
        cases arrives
      · have tidy_parent := (Path.parent?_spec parent_eq).2.2.1
        have plain_mid := (makeDirsUpTo_grown smaller tidy_parent plain up).1.adds.plain plain
        have last_grown := (ensureDir_grown plain_mid tidy once).1
        obtain ⟨mid_again, up_again, adds_mid, adds_last⟩ :=
          ih smaller (Nat.lt_succ_self smaller) tidy_parent up (last_grown.adds.trans ends)
        obtain ⟨_, reaches⟩ := ensureDir_reaches plain_mid tidy once
        have reaches := adds_mid.keeps.reaches reaches
        obtain rfl := (adds_last.keeps.reaches reaches).unique leads
        obtain ⟨again, once_again, adds⟩ := ensureDir_between tidy (adds_mid.plain plain_mid)
          last_grown adds_mid adds_last ends reaches dir
        have not_found :=
          makeDir_missing plain_other tidy leads.nul leads.given leads.fits missing
        exact ⟨again, makeDirsUpTo_up not_found parent_eq given up_again once_again, adds⟩

theorem makeDirs_between {path : Path} (tidy : Path.Tidy path) (plain : Plain fs)
    (ran : Runs (makeDirs path) fs () later) (below : Adds fs other) (above : Adds other later) :
    ∃ again, Runs (makeDirs path) other () again ∧ SameContent later again := by
  unfold makeDirs at ran ⊢
  by_cases given : path = []
  · rw [if_pos given, runs_pure_iff] at ran
    obtain ⟨_, rfl⟩ := ran
    rw [if_pos given]
    exact ⟨other, (runs_pure_iff _ _ _ _).mpr ⟨rfl, rfl⟩, below.same above⟩
  · rw [if_neg given] at ran ⊢
    obtain ⟨again, ran_again, adds, back⟩ :=
      makeDirsUpTo_between _ tidy plain ran below above ⟨rfl, fun _ => .inl rfl⟩
    exact ⟨again, ran_again, adds.same back⟩

end FileSystem

end SmaliReport
