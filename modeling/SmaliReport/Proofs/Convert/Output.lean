import SmaliReport.Proofs.Convert.Sources
import SmaliReport.Proofs.FileSystem.Directories
import SmaliReport.Proofs.Tree.Written

/-!
What a conversion leaves in its output directory: the reports of the accepted files, each at the
place of its file, the directories that lead to them, and nothing of what was there before.
-/

namespace SmaliReport

open FileSystem

namespace Tree

theorem names_ofPlace (place : Place) (proper : ∀ name ∈ place, Node.ProperName name) :
    Path.names (Path.ofPlace place) = place := by
  have skip : Path.parts (Path.ofPlace place) = Path.parts (Path.joined place) :=
    Path.parts_append [] _
  rw [Path.names_eq, skip,
    Path.parts_joined place fun name member =>
      ⟨(proper name member).nonempty, (proper name member).slash⟩,
    List.filter_eq_self]
  intro name member
  simpa using (proper name member).dot

/-- A root is named for its place; at the root of the file system only the path is left. -/
theorem rootNameOf_cases {fs : FileSystem} (regular : fs.Regular) {source : Path}
    {arrival : Arrival} {entries : List (Name × Node)}
    (found : fs.find source = .ok (arrival, .dir entries)) :
    (∃ front name, arrival.place = front ++ [name] ∧ rootNameOf fs source = Path.text name) ∨
      (arrival.place = [] ∧ rootNameOf fs source = Path.text source ∧
        Path.fileName? source = none) := by
  obtain ⟨⟨reaches, _⟩, there⟩ := (find_ok_iff regular.plain _ _ _).mp found
  have proper := Node.Regular.proper regular arrival.place there
  have way := go_without_dots reaches.arrives
  rw [Path.steps_without_dots] at way
  cases named : Path.fileName? source with
  | some name =>
    left
    obtain ⟨last, up⟩ := Option.filter_eq_some_iff.mp named
    have upward : name ≠ Path.dots := by simpa using up
    have dot := (Path.mem_names (List.mem_of_getLast? last)).2.2
    obtain ⟨front, names⟩ := List.getLast?_eq_some_iff.mp last
    rw [names] at way
    obtain ⟨above, _, taken⟩ := (go_concat_ok_iff _ _ _ _).mp way
    exact ⟨above, name, step_named dot upward taken, by rw [rootNameOf, named]⟩
  | none =>
    have canonical : fs.canonical source = .ok (Path.ofPlace arrival.place) := by
      simp only [canonical, found, bind, Except.bind]
    by_cases root : arrival.place = []
    · right
      refine ⟨root, ?_, rfl⟩
      rw [rootNameOf, named]
      simp only [canonical, root]
      rfl
    · left
      have upward : arrival.place.getLast root ≠ Path.dots :=
        (proper _ (List.getLast_mem root)).dots
      have last :
          Path.fileName? (Path.ofPlace arrival.place) = some (arrival.place.getLast root) := by
        rw [Path.fileName?, names_ofPlace _ proper, List.getLast?_eq_some_getLast root]
        exact Option.filter_eq_some_iff.mpr ⟨rfl, by simpa using upward⟩
      refine ⟨_, _, (List.dropLast_concat_getLast root).symm, ?_⟩
      rw [rootNameOf, named]
      simp only [canonical, Except.toOption, Option.bind_some, last, Option.getD_some]

end Tree

namespace Request

/-- The file system without an old output directory that is to be replaced. -/
def cleared (r : Request) (fs : FileSystem) : FileSystem :=
  if r.force && fs.has r.output then (fs.removeAll r.output).toOption.getD fs else fs

/-- The name of the directory in the output that all reports are in. -/
def topName (r : Request) (fs : FileSystem) : Name :=
  if r.isMultiRoot fs then Path.ofText Tree.rootName
  else
    match fs.find r.source with
    | .ok (arrival, _) => arrival.place.getLastD []
    | .error _ => []

variable {fs later : FileSystem} (r : Request)

theorem outputName_proper : Node.ProperName outputName := by decide

theorem output_bare : [Path.slash].isSuffixOf r.output = false :=
  Path.join_bare _ _ outputName_proper.nonempty outputName_proper.slash

/-- The old output is removed, the new one is made, and the tree is written, in this order. A run
ends with the first of these that fails. -/
theorem run_replaceOutput_cases {tree : Tree} {result : Except Failure Unit}
    (ran : (r.replaceOutput tree).run fs = (result, later)) :
    (later = fs ∧ ∃ cause, result = .error ⟨"Failed to remove".toList ++ ' ' :: r.output.text, cause⟩) ∨
      (((r.force && fs.has r.output) = true → fs.removeAll r.output = .ok (r.cleared fs)) ∧
        ((∃ cause, (makeDirs r.output).run (r.cleared fs) = (.error cause, later) ∧
            result = .error ⟨"Failed to create".toList ++ ' ' :: r.output.text, cause⟩) ∨
          ∃ mid, Runs (makeDirs r.output) (r.cleared fs) () mid ∧
            (tree.write r.output).run mid = (result, later))) := by
  have rest {cleared : FileSystem}
      (ran : (changes "Failed to create" r.output (makeDirs r.output) >>= fun _ =>
        tree.write r.output).run cleared = (result, later)) :
      (∃ cause, (makeDirs r.output).run cleared = (.error cause, later) ∧
          result = .error ⟨"Failed to create".toList ++ ' ' :: r.output.text, cause⟩) ∨
        ∃ mid, Runs (makeDirs r.output) cleared () mid ∧
          (tree.write r.output).run mid = (result, later) := by
    rcases run_bind_cases ran with ⟨e, made, rfl⟩ | ⟨_, mid, made, written⟩
    · rcases run_changes_cases made with ⟨done, _⟩ | ⟨cause, failed, same⟩
      · cases done
      · cases same
        exact .inl ⟨cause, failed, rfl⟩
    · rcases run_changes_cases made with ⟨_, made⟩ | ⟨_, _, failed⟩
      · exact .inr ⟨mid, made, written⟩
      · cases failed
  unfold replaceOutput at ran
  simp only [run_bind _ _ fs, run_get] at ran
  unfold cleared
  by_cases old : (r.force && fs.has r.output) = true
  · rw [if_pos old] at ran ⊢
    rcases run_bind_cases ran with ⟨e, removed, rfl⟩ | ⟨_, mid, removed, ran⟩
    · rcases run_change_cases removed with ⟨done, _⟩ | ⟨same, cause, failed⟩
      · cases done
      · cases failed
        exact .inl ⟨same, cause, rfl⟩
    · have removed := (runs_change_iff _ _ _ fs mid).mp removed
      rw [removed]
      exact .inr ⟨fun _ => rfl, rest ran⟩
  · rw [if_neg old] at ran ⊢
    exact .inr ⟨fun removes => absurd removes old, rest ran⟩

theorem runs_replaceOutput {tree : Tree} (ran : Runs (r.replaceOutput tree) fs () later) :
    ∃ mid, ((r.force && fs.has r.output) = true → fs.removeAll r.output = .ok (r.cleared fs)) ∧
      Runs (makeDirs r.output) (r.cleared fs) () mid ∧
      Runs (tree.write r.output) mid () later := by
  rcases r.run_replaceOutput_cases ran with
    ⟨_, _, failed⟩ | ⟨removed, ⟨_, _, failed⟩ | ⟨mid, made, written⟩⟩
  · cases failed
  · cases failed
  · exact ⟨mid, removed, made, written⟩

/-- All checks and all reading come before the first change. -/
theorem run_convert (dryRun : Bool) : (r.convert dryRun).run fs =
    match r.check fs, r.tree? fs with
    | .error e, _ => (.error e, fs)
    | .ok (), .error f => (.error (.failed f), fs)
    | .ok (), .ok none => (.ok .nothingFound, fs)
    | .ok (), .ok (some tree) =>
      if dryRun then (.ok (.preview tree), fs)
      else
        match (r.replaceOutput tree).run fs with
        | (.ok (), later) => (.ok (.written r.output tree.leaves.length), later)
        | (.error f, later) => (.error (.failed f), later) := by
  simp only [convert, run_bind, run_get, run_lift]
  cases r.check fs with
  | error e => rfl
  | ok checked =>
    cases r.tree? fs with
    | error f => rfl
    | ok found =>
      cases found with
      | none => rfl
      | some tree =>
        cases dryRun with
        | true => rfl
        | false =>
          simp only [Except.mapError, Bool.false_eq_true, if_false]
          rw [run_bind, run_adapt]
          obtain ⟨result, later⟩ := (r.replaceOutput tree).run fs
          cases result <;> rfl

theorem run_nothing (checked : r.check fs = .ok ()) (read : r.tree? fs = .ok none) :
    (r.convert false).run fs = (.ok .nothingFound, fs) := by
  rw [run_convert, checked, read]

theorem run_tree (checked : r.check fs = .ok ()) {tree : Tree} (read : r.tree? fs = .ok tree) :
    (r.convert false).run fs =
      match (r.replaceOutput tree).run fs with
      | (.ok (), later) => (.ok (.written r.output tree.leaves.length), later)
      | (.error e, later) => (.error (.failed e), later) := by
  rw [run_convert, checked, read]
  rfl

theorem has_above {path : Path} {name : Name} (plain : Plain fs) (given : path ≠ [])
    (named : Node.ProperName name) (there : fs.has (Path.join path name) = true) :
    fs.has path = true := by
  obtain ⟨place, reaches, _⟩ := (has_iff plain _).mp there
  obtain ⟨above, reaches, taken⟩ := reaches.above given named.nonempty named.slash
  exact (has_iff plain path).mpr ⟨above, reaches, by simp [step_ok_dir taken]⟩

/-- A destination that is not empty is checked, so that an output there is met with force. -/
theorem forced_of_check (plain : Plain fs) (checked : r.check fs = .ok ())
    (empty : r.destination = [] → fs.has r.output = true → r.force = true)
    (old : fs.has r.output = true) : r.force = true := by
  by_cases given : r.destination = []
  · exact empty given old
  · have there := has_above plain given outputName_proper old
    unfold check at checked
    split at checked
    · cases checked
    · split at checked
      · cases checked
      · split at checked
        · cases checked
        · rename_i kept
          simpa [there] using kept

theorem cleared_cases (regular : fs.Regular)
    (removed : (r.force && fs.has r.output) = true → fs.removeAll r.output = .ok (r.cleared fs)) :
    ((r.force && fs.has r.output) = false ∧ r.cleared fs = fs) ∨
      ∃ place, fs.Reaches r.output place ∧ (r.cleared fs).here = fs.here ∧
        ∀ q, (r.cleared fs).kind? q = if place <+: q then none else fs.kind? q := by
  cases old : r.force && fs.has r.output with
  | false =>
    left
    refine ⟨rfl, ?_⟩
    unfold cleared
    rw [old, if_neg (by simp)]
  | true =>
    right
    obtain ⟨place, reaches, dir, same⟩ := removeAll_ok regular.plain (removed old)
    have steps := Path.steps_join r.destination _ outputName_proper.nonempty outputName_proper.slash
    obtain ⟨above, _, taken⟩ := (go_concat_ok_iff _ _ _ _).mp (steps ▸ reaches.arrives)
    obtain rfl := step_named outputName_proper.dot outputName_proper.dots taken
    refine ⟨_, reaches, by rw [same]; rfl, fun q => ?_⟩
    rw [same]
    exact kind?_remove fs above _ q regular (step_ok_dir taken)

theorem cleared_plain (regular : fs.Regular)
    (removed : (r.force && fs.has r.output) = true → fs.removeAll r.output = .ok (r.cleared fs)) :
    Plain (r.cleared fs) := by
  rcases r.cleared_cases regular removed with ⟨_, same⟩ | ⟨place, _, _, kinds⟩
  · rw [same]
    exact regular.plain
  · intro q target
    rw [kinds]
    split
    · simp
    · exact regular.plain q target

/-- An old output directory that may be replaced is gone before a new one is made. -/
theorem cleared_absent (regular : fs.Regular) (forced : fs.has r.output = true → r.force = true)
    (removed : (r.force && fs.has r.output) = true → fs.removeAll r.output = .ok (r.cleared fs)) :
    (r.cleared fs).here = fs.here ∧ (r.cleared fs).has r.output = false := by
  rcases r.cleared_cases regular removed with ⟨kept, same⟩ | ⟨place, reaches, here, kinds⟩
  · rw [same]
    refine ⟨rfl, ?_⟩
    cases old : fs.has r.output with
    | false => rfl
    | true => rw [old, forced old] at kept; cases kept
  · refine ⟨here, ?_⟩
    cases again : (r.cleared fs).has r.output with
    | false => rfl
    | true =>
      obtain ⟨q, reaches_again, kept⟩ :=
        (has_iff (r.cleared_plain regular removed) r.output).mp again
      have start : (r.cleared fs).start r.output = fs.start r.output := by
        simp only [FileSystem.start, here]
      have dirs (q : Place) (dir : (r.cleared fs).kind? q = some .dir) :
          fs.kind? q = some .dir := by
        rw [kinds] at dir
        split at dir
        · cases dir
        · exact dir
      have before := go_mono dirs reaches_again.arrives
      rw [start, reaches.arrives] at before
      cases before
      exact absurd ((kinds _).trans (if_pos (List.prefix_refl _))) kept

theorem settled_concat (place : Place) (names : List Name) (name : Name) (up : name ≠ Path.dots)
    (settled : Settled fs place names) : Settled fs place (names ++ [name]) := by
  induction names generalizing place with
  | nil =>
    simp only [List.nil_append, Settled, if_neg up]
    split <;> simp
  | cons first rest ih =>
    simp only [List.cons_append, Settled] at settled ⊢
    split
    · rename_i dots
      rw [if_pos dots] at settled
      exact ih _ settled
    · rename_i dots
      rw [if_neg dots] at settled
      split
      · rename_i dir
        rw [if_pos dir] at settled
        exact ih _ settled
      · rename_i dir
        rw [if_neg dir] at settled
        rw [List.mem_append, List.mem_singleton, not_or]
        exact ⟨settled, Ne.symm up⟩

theorem settled_output (settled : Settled fs (fs.start r.destination) (Path.names r.destination)) :
    Settled fs (fs.start r.output) (Path.names r.output) := by
  rw [output, start_join _ outputName_proper.slash,
    Path.names_join _ _ outputName_proper.nonempty outputName_proper.slash outputName_proper.dot]
  exact settled_concat _ _ _ outputName_proper.dots settled

theorem output_given : r.output ≠ [] := by
  intro empty
  have steps := Path.steps_join r.destination _ outputName_proper.nonempty outputName_proper.slash
  rw [← output, empty] at steps
  simp [Path.steps] at steps

theorem output_grown {mid : FileSystem} (plain : Plain fs) {result : Except FileError Unit}
    (ran : (makeDirs r.output).run fs = (result, mid)) :
    Grown fs mid r.output ∧
      (result = .ok () → ∃ place, mid.Reaches r.output place ∧ mid.kind? place = some .dir) := by
  rw [makeDirs, if_neg r.output_given] at ran
  exact makeDirsUpTo_grown _ (.inl r.output_bare) plain ran

theorem output_dir {mid : FileSystem} (regular : fs.Regular)
    (removed : (r.force && fs.has r.output) = true → fs.removeAll r.output = .ok (r.cleared fs))
    (made : Runs (makeDirs r.output) (r.cleared fs) () mid) :
    Plain mid ∧ ∃ place, mid.Reaches r.output place ∧ mid.kind? place = some .dir := by
  have plain := r.cleared_plain regular removed
  obtain ⟨grown, ended⟩ := r.output_grown plain made
  exact ⟨grown.adds.plain plain, ended rfl⟩

theorem output_empty {mid : FileSystem} (regular : fs.Regular)
    (forced : fs.has r.output = true → r.force = true)
    (settled : Settled (r.cleared fs) (fs.start r.destination) (Path.names r.destination))
    (removed : (r.force && fs.has r.output) = true → fs.removeAll r.output = .ok (r.cleared fs))
    (made : Runs (makeDirs r.output) (r.cleared fs) () mid) {place : Place}
    (reaches : mid.Reaches r.output place) (dirs : List Name) (name : Name) :
    mid.kind? (place ++ dirs ++ [name]) = none := by
  have plain := r.cleared_plain regular removed
  obtain ⟨here, absent⟩ := r.cleared_absent regular forced removed
  have start : (r.cleared fs).start r.destination = fs.start r.destination := by
    simp only [FileSystem.start, here]
  have settled_output := r.settled_output (start.symm ▸ settled)
  obtain ⟨other, made, missing⟩ :=
    makeDirs_new (.inl r.output_bare) r.output_given plain settled_output absent made
  obtain rfl : place = other := reaches.unique made.reaches
  have nothing : (r.cleared fs).kind? (place ++ dirs ++ [name]) = none := by
    rw [List.append_assoc]
    exact kind?_below _ place _ (by simp) (by simp [missing])
  rcases made.kinds (place ++ dirs ++ [name]) with same | ⟨_, _, above⟩
  · rw [same, nothing]
  · have length := above.length_le
    simp only [List.length_append, List.length_cons, List.length_nil] at length
    omega

theorem text_topName (regular : fs.Regular) (textual : (Node.dir fs.entries).Textual) :
    Path.ofText (Path.text (r.topName fs)) = r.topName fs := by
  unfold topName
  split
  · rw [Path.text_ofText]
  · split
    · rename_i arrival node found
      have there := ((find_ok_iff regular.plain _ _ _).mp found).2
      rcases List.eq_nil_or_concat arrival.place with root | ⟨above, name, place⟩
      · rw [root]
        rfl
      · rw [place, List.concat_eq_append, List.getLastD_concat]
        rw [place] at there
        exact textual.at? there name (by simp)
    · rfl

/-- The top directory of the reports can only be made if the name it has is that of a place, and
not the path of the file system's root. -/
theorem top_plain {mid : FileSystem} (regular : fs.Regular) (directory : fs.isDir r.source = true)
    (plain : Plain mid)
    (made : mid.makeDir (Path.join r.output (Path.ofText (r.treeName fs))) = .ok later) :
    Node.PlainName (Path.ofText (r.treeName fs)) ∧ r.treeName fs = Path.text (r.topName fs) := by
  obtain ⟨arrival, entries, found⟩ := find_of_isDir directory
  unfold treeName topName at *
  split at made
  · rename_i multi
    rw [if_pos multi, if_pos multi]
    have proper : Node.ProperName (Path.ofText Tree.rootName) := by decide
    exact ⟨proper.toPlainName, (Path.text_ofText _).symm⟩
  · rename_i single
    rw [if_neg single, if_neg single]
    obtain ⟨⟨reaches, _⟩, there⟩ := (find_ok_iff regular.plain _ _ _).mp found
    rcases Tree.rootNameOf_cases regular found with
      ⟨front, name, place, named⟩ | ⟨_, shown, unnamed⟩
    · have proper := Node.Regular.proper regular arrival.place there
      rw [place] at proper
      have own := proper name (List.mem_append_right _ List.mem_cons_self)
      rw [named]
      exact ⟨own.text, by simp only [found, place, List.getLastD_concat]⟩
    · rw [shown] at made
      have given : Path.ofText (Path.text r.source) ≠ [] :=
        mt (Path.shown_eq_nil_iff r.source).mp reaches.given
      obtain ⟨name, named⟩ := fileName?_of_made plain given made
      rw [Path.fileName?_shown r.source unnamed] at named
      cases named

end Request

end SmaliReport
