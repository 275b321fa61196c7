import SmaliReport.Proofs.FileSystem.Names
import SmaliReport.Proofs.FileSystem.Walk

/-!
What a successful change of a file system without links does: where its path led before, and what
lies at each place after it.
-/

namespace SmaliReport.FileSystem

/-- The later file system differs at one place, which holds something of this kind. -/
structure Sets (fs later : FileSystem) (place : Place) (kind : Kind) : Prop where
  here : later.here = fs.here
  kinds : ∀ q, later.kind? q = if q = place then some kind else fs.kind? q

/-- Directories stay directories, and files stay files. -/
structure Keeps (fs later : FileSystem) : Prop where
  here : later.here = fs.here
  dirs : ∀ place, fs.kind? place = some .dir → later.kind? place = some .dir
  files : ∀ place bytes, fs.kind? place = some (.file bytes) →
    ∃ bytes, later.kind? place = some (.file bytes)

variable {fs later last : FileSystem}

theorem Keeps.refl (fs : FileSystem) : Keeps fs fs :=
  ⟨rfl, fun _ dir => dir, fun _ bytes file => ⟨bytes, file⟩⟩

theorem Keeps.trans (first : Keeps fs later) (second : Keeps later last) : Keeps fs last where
  here := second.here.trans first.here
  dirs place dir := second.dirs place (first.dirs place dir)
  files place bytes file := by
    obtain ⟨bytes, file⟩ := first.files place bytes file
    exact second.files place bytes file

theorem Keeps.start (keeps : Keeps fs later) (path : Path) : later.start path = fs.start path := by
  simp only [FileSystem.start, keeps.here]

theorem Keeps.reaches (keeps : Keeps fs later) {path : Path} {place : Place}
    (reaches : fs.Reaches path place) : later.Reaches path place where
  nul := reaches.nul
  given := reaches.given
  fits := reaches.fits
  arrives := by
    rw [keeps.start path]
    exact go_mono keeps.dirs reaches.arrives

theorem Sets.plain {place : Place} {kind : Kind} (sets : Sets fs later place kind)
    (bare : ∀ target, kind ≠ .link target) (plain : Plain fs) : Plain later := by
  intro q target
  rw [sets.kinds q]
  split
  · intro same
    exact bare target (Option.some.inj same)
  · exact plain q target

theorem Sets.keeps_dir {place : Place} (sets : Sets fs later place .dir)
    (free : fs.kind? place = none) : Keeps fs later where
  here := sets.here
  dirs q dir := by
    rw [sets.kinds q]
    split
    · rfl
    · exact dir
  files q bytes file := by
    rw [sets.kinds q]
    split
    · rename_i same
      rw [same, free] at file
      cases file
    · exact ⟨bytes, file⟩

theorem Sets.keeps_file {place : Place} {bytes : List UInt8}
    (sets : Sets fs later place (.file bytes)) (free : fs.kind? place ≠ some .dir) :
    Keeps fs later where
  here := sets.here
  dirs q dir := by
    rw [sets.kinds q]
    split
    · rename_i same
      exact absurd (same ▸ dir) free
    · exact dir
  files q bytes file := by
    rw [sets.kinds q]
    split
    · exact ⟨_, rfl⟩
    · exact ⟨bytes, file⟩

/-- A way that ends where nothing is ends with a name in a directory. -/
theorem go_missing {start place : Place} {names : List Name} (nonempty : names ≠ [])
    (arrives : go fs.kind? start names = .ok place) (missing : fs.kind? place = none) :
    ∃ front name above, names = front ++ [name] ∧ go fs.kind? start front = .ok above ∧
      place = above ++ [name] ∧ fs.kind? above = some .dir ∧
      name ≠ Path.dot ∧ name ≠ Path.dots := by
  rw [← List.dropLast_concat_getLast nonempty] at arrives
  obtain ⟨above, front, taken⟩ := (go_concat_ok_iff _ _ _ _).mp arrives
  have dir := step_ok_dir taken
  rcases step_ok_cases taken with ⟨_, rfl⟩ | ⟨_, rfl⟩ | ⟨dot, dots, _, rfl⟩
  · rw [dir] at missing
    cases missing
  · rw [kind?_dropLast fs above dir] at missing
    cases missing
  · exact ⟨_, _, above, (List.dropLast_concat_getLast nonempty).symm, front, rfl, dir, dot, dots⟩

theorem tidy_bare {path : Path} (tidy : Path.Tidy path) :
    (let bare := (path.reverse.dropWhile (· = Path.slash)).reverse
      if bare = [] then path else bare) = path := by
  rcases tidy with ends | rfl
  · by_cases given : path = []
    · rw [given]
      rfl
    · have last : path.getLast given ≠ Path.slash := by
        intro slash
        have := (Path.isSuffixOf_slash path).mpr
          ⟨path.dropLast, by rw [← slash, List.dropLast_concat_getLast given]⟩
        rw [ends] at this
        cases this
      have bare : (path.reverse.dropWhile (· = Path.slash)).reverse = path := by
        rw [← List.dropLast_concat_getLast given, List.reverse_append, List.reverse_singleton,
          List.singleton_append, List.dropWhile_cons_of_neg (by simpa using last),
          List.reverse_cons, List.reverse_reverse]
      simp only [bare, if_neg given]
  · rfl

section Plain

variable (plain : Plain fs)

include plain

theorem free_ok_iff (path : Path) (place : Place) :
    fs.free path = .ok place ↔ fs.Reaches path place ∧ fs.kind? place = none := by
  unfold free
  cases located : fs.locate false path with
  | error e =>
    simp only [bind, Except.bind, reduceCtorEq, false_iff, not_and]
    intro reaches
    have := (locate_ok_iff plain false path ⟨place, 40⟩).mpr ⟨reaches, rfl⟩
    rw [located] at this
    cases this
  | ok arrival =>
    have reaches := ((locate_ok_iff plain false path arrival).mp located).1
    simp only [bind, Except.bind]
    constructor
    · intro ok
      split at ok
      · cases ok
      · rename_i missing
        cases ok
        exact ⟨reaches, (kind?_eq_none_iff fs _).mpr (by simpa using missing)⟩
    · rintro ⟨again, missing⟩
      obtain rfl := again.unique reaches
      rw [(kind?_eq_none_iff fs _).mp missing]
      rfl

/-- A directory at a free place is all that is new once it is put there. -/
theorem free_sets {path : Path} {place : Place} (freed : fs.free path = .ok place) :
    Sets fs (fs.put place (.dir [])) place .dir := by
  obtain ⟨reaches, missing⟩ := (free_ok_iff plain path place).mp freed
  obtain ⟨_, name, above, _, _, rfl, dir, _⟩ :=
    go_missing (Path.steps_ne_nil path reaches.given) reaches.arrives missing
  refine ⟨rfl, fun q => ?_⟩
  exact kind?_put_bare fs above name (.dir []) q dir (fun _ _ => rfl) (by simp [missing])

theorem makeDir_sets {path : Path} (tidy : Path.Tidy path) (made : fs.makeDir path = .ok later) :
    ∃ place, fs.Reaches path place ∧ fs.kind? place = none ∧ Sets fs later place .dir := by
  have bare := tidy_bare tidy
  unfold makeDir at made
  simp only at bare
  simp only [bare] at made
  cases freed : fs.free path with
  | error e =>
    rw [freed] at made
    cases made
  | ok place =>
    rw [freed] at made
    cases made
    obtain ⟨reaches, missing⟩ := (free_ok_iff plain path place).mp freed
    exact ⟨place, reaches, missing, free_sets plain freed⟩

theorem makeDir_free {path : Path} {place : Place} (tidy : Path.Tidy path)
    (reaches : fs.Reaches path place) (missing : fs.kind? place = none) :
    fs.makeDir path = .ok (fs.put place (.dir [])) := by
  have bare := tidy_bare tidy
  simp only at bare
  simp only [makeDir, bare, (free_ok_iff plain path place).mpr ⟨reaches, missing⟩]
  rfl

theorem makeDir_last {path : Path} (made : fs.makeDir path = .ok later) :
    ∃ front name, Path.parts path = front ++ [name] ∧ name ≠ Path.dot ∧ name ≠ Path.dots := by
  unfold makeDir at made
  simp only at made
  generalize same : (path.reverse.dropWhile (· = Path.slash)).reverse = bare at made
  have whole : path = bare ++ (path.reverse.takeWhile (· = Path.slash)).reverse := by
    rw [← same, ← List.reverse_append, List.takeWhile_append_dropWhile, List.reverse_reverse]
  have all : ∀ c ∈ (path.reverse.takeWhile (· = Path.slash)).reverse, c = Path.slash := by
    intro c member
    simpa using List.all_eq_true.mp List.all_takeWhile c (List.mem_reverse.mp member)
  have parts := Path.parts_slashes bare _ all
  rw [← whole] at parts
  have parts_used : Path.parts (if bare = [] then path else bare) = Path.parts path := by
    split
    · rfl
    · exact parts.symm
  generalize (if bare = [] then path else bare) = used at made parts_used
  cases freed : fs.free used with
  | error e =>
    rw [freed] at made
    cases made
  | ok place =>
    obtain ⟨reaches, missing⟩ := (free_ok_iff plain used place).mp freed
    obtain ⟨front, name, _, steps, _, _, _, dot, dots⟩ :=
      go_missing (Path.steps_ne_nil used reaches.given) reaches.arrives missing
    refine ⟨front, name, ?_, dot, dots⟩
    cases ends : [Path.slash].isSuffixOf used with
    | false => rw [← parts_used, ← steps, Path.steps_of_no_slash used ends]
    | true =>
      rw [Path.steps, if_pos ends] at steps
      have last := congrArg List.getLast? steps
      rw [List.getLast?_concat, List.getLast?_concat] at last
      exact absurd (Option.some.inj last).symm dot

/-- A directory cannot be made by a path that ends in one without a name. -/
theorem fileName?_of_made {path source : Path} (given : source ≠ [])
    (made : fs.makeDir (Path.join path source) = .ok later) :
    ∃ name, Path.fileName? source = some name := by
  obtain ⟨front, name, parts, dot, dots⟩ := makeDir_last plain made
  cases absolute : Path.isAbsolute source with
  | true =>
    rw [Path.join, if_pos absolute] at parts
    exact ⟨name, Path.fileName?_of_parts parts dot dots⟩
  | false =>
    have nonempty : Path.parts source ≠ [] := by
      cases source with
      | nil => exact absurd rfl given
      | cons c rest =>
        apply Path.parts_cons_ne_nil c rest
        rintro rfl
        cases absolute
    rw [Path.parts_join_relative path source absolute] at parts
    have last := congrArg List.getLast? parts
    rw [List.getLast?_concat, List.getLast?_append, List.getLast?_eq_some_getLast nonempty,
      Option.some_or] at last
    have shape := (List.dropLast_concat_getLast nonempty).symm
    rw [Option.some.inj last] at shape
    exact ⟨name, Path.fileName?_of_parts shape dot dots⟩

theorem write_sets {path : Path} {bytes : List UInt8} (written : fs.write path bytes = .ok later) :
    ∃ place, fs.Reaches path place ∧ fs.kind? place ≠ some .dir ∧
      Sets fs later place (.file bytes) := by
  unfold write at written
  cases located : fs.locate true path with
  | error e =>
    rw [located] at written
    cases written
  | ok arrival =>
    have reaches := ((locate_ok_iff plain true path arrival).mp located).1
    simp only [located, bind, Except.bind] at written
    split at written
    · cases written
    · rename_i no_dir
      cases written
      have free : fs.kind? arrival.place ≠ some .dir := by
        intro dir
        obtain ⟨entries, there⟩ := (kind?_eq_dir_iff fs _).mp dir
        exact no_dir entries there
      refine ⟨arrival.place, reaches, free, rfl, fun q => ?_⟩
      obtain ⟨above, name, same, dir⟩ : ∃ above name, arrival.place = above ++ [name] ∧
          fs.kind? above = some .dir := by
        cases kind : fs.kind? arrival.place with
        | none =>
          obtain ⟨_, name, above, _, _, same, dir, _⟩ :=
            go_missing (Path.steps_ne_nil path reaches.given) reaches.arrives kind
          exact ⟨above, name, same, dir⟩
        | some kind =>
          have given : arrival.place ≠ [] := by
            intro root
            rw [root] at free
            exact free rfl
          have whole := (List.dropLast_concat_getLast given).symm
          refine ⟨_, _, whole, kind?_above fs arrival.place.dropLast
            [arrival.place.getLast given] (by simp) ?_⟩
          rw [← whole, kind]
          simp
      rw [same] at free ⊢
      exact kind?_put_bare fs above name (.file bytes) q dir (fun _ _ => rfl) free

theorem removeAll_ok {path : Path} (removed : fs.removeAll path = .ok later) :
    ∃ place, fs.Reaches path place ∧ fs.kind? place = some .dir ∧ later = fs.remove place := by
  unfold removeAll at removed
  cases located : fs.locate false path with
  | error e =>
    rw [located] at removed
    cases removed
  | ok arrival =>
    have reaches := ((locate_ok_iff plain false path arrival).mp located).1
    simp only [located, bind, Except.bind] at removed
    split at removed
    · cases removed
    · cases removed
    · rename_i node no_file there
      cases removed
      refine ⟨arrival.place, reaches, ?_, rfl⟩
      have kind : fs.kind? arrival.place = some node.kind := by rw [kind?, there]; rfl
      cases node with
      | file bytes => exact absurd rfl (no_file bytes)
      | link target => exact absurd kind (plain _ target)
      | dir entries => exact kind

end Plain

end SmaliReport.FileSystem
