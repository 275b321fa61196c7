import SmaliReport.Proofs.Convert.Conversion

/-!
What a conversion leaves alone. However it ends, nothing outside the output directory differs but
the destination and directories above it, which may be new. A result that comes before the first
change leaves the file system as it was.
-/

namespace SmaliReport

open FileSystem

namespace Leaf

theorem slash_not_mem_nameOf (file : Name) (slash : Path.slash ∉ file) : '/' ∉ nameOf file := by
  have shown : '/' ∉ Path.text file := mt (Text.mem_of_mem_lossy (by decide)) slash
  unfold nameOf
  cases found : ('.' :: Tree.rootName).isSuffixOf? (Path.text file) with
  | none => exact shown
  | some name =>
    rw [← List.isSuffixOf?_eq_some_iff_append_eq.mp found, List.mem_append, not_or] at shown
    exact shown.1

theorem slash_not_mem_file_name (path : Path) : Path.slash ∉ (Path.fileName? path).getD [] := by
  cases named : Path.fileName? path with
  | none => exact List.not_mem_nil
  | some name =>
    obtain ⟨last, _⟩ := Option.filter_eq_some_iff.mp named
    exact (Path.mem_names (List.mem_of_getLast? last)).2.1

end Leaf

namespace Tree

/-- Nothing is taken away, and only places below this one may differ. -/
structure Below (fs later : FileSystem) (place : Place) : Prop where
  plain : Plain later
  keeps : Keeps fs later
  outside : ∀ q, ¬ place <+: q → later.kind? q = fs.kind? q

variable {fs mid later : FileSystem} {place : Place}

theorem Below.refl (plain : Plain fs) (place : Place) : Below fs fs place :=
  ⟨plain, .refl fs, fun _ _ => rfl⟩

theorem Below.trans (first : Below fs mid place) (second : Below mid later place) :
    Below fs later place where
  plain := second.plain
  keeps := first.keeps.trans second.keeps
  outside q apart := (second.outside q apart).trans (first.outside q apart)

theorem Below.deeper {name : Name} (below : Below fs later (place ++ [name])) :
    Below fs later place where
  plain := below.plain
  keeps := below.keeps
  outside q apart := below.outside q fun inner =>
    apart ((List.prefix_append place [name]).trans inner)

theorem Below.of_sets {name : Name} {kind : Kind} (sets : Sets fs later (place ++ [name]) kind)
    (plain : Plain later) (keeps : Keeps fs later) : Below fs later place where
  plain := plain
  keeps := keeps
  outside q apart := by
    rw [sets.kinds, if_neg]
    rintro rfl
    exact apart (List.prefix_append place [name])

mutual

theorem write_below (parent : Path) (place : Place) :
    ∀ (t : Tree) (fs later : FileSystem) (result : Except Failure Unit), Proper t → Plain fs →
      fs.Reaches parent place → (write parent t).run fs = (result, later) → Below fs later place
  | .leaf l, fs, later, result, proper, plain, reaches, ran => by
    cases proper with
    | leaf slash =>
      rcases run_change_cases ran with ⟨_, written⟩ | ⟨rfl, _⟩
      · obtain ⟨free, sets⟩ := write_below_sets slash plain reaches written
        exact .of_sets sets (sets.plain (by simp) plain) (sets.keeps_file free)
      · exact .refl plain place
  | .dir title children, fs, later, result, proper, plain, reaches, ran => by
    cases proper with
    | dir named each =>
      rw [write] at ran
      generalize Path.ofText title = name at named ran
      rcases run_bind_cases ran with ⟨e, failed, _⟩ | ⟨_, mid, made, ran⟩
      · rcases run_change_cases failed with ⟨done, _⟩ | ⟨rfl, _⟩
        · cases done
        · exact .refl plain place
      · obtain ⟨reaches_dir, missing, sets⟩ :=
          makeDir_below named plain reaches ((runs_change_iff _ _ _ fs mid).mp made)
        have keeps := sets.keeps_dir missing
        have first : Below fs mid place := .of_sets sets (sets.plain (by simp) plain) keeps
        exact first.trans (writeAll_below (Path.join parent name) (place ++ [name]) children mid
          later result each first.plain (keeps.reaches reaches_dir) ran).deeper

theorem writeAll_below (parent : Path) (place : Place) :
    ∀ (ts : List Tree) (fs later : FileSystem) (result : Except Failure Unit),
      (∀ t ∈ ts, Proper t) → Plain fs → fs.Reaches parent place →
      (writeAll parent ts).run fs = (result, later) → Below fs later place
  | [], fs, later, result, _, plain, _, ran => by
    cases ran
    exact .refl plain place
  | t :: ts, fs, later, result, proper, plain, reaches, ran => by
    rw [List.forall_mem_cons] at proper
    rcases run_bind_cases ran with ⟨e, failed, _⟩ | ⟨_, mid, first, rest⟩
    · exact write_below parent place t fs later (.error e) proper.1 plain reaches failed
    · have below := write_below parent place t fs mid _ proper.1 plain reaches first
      exact below.trans (writeAll_below parent place ts mid later result proper.2 below.plain
        (below.keeps.reaches reaches) rest)

end

theorem proper_rowOf (regular : fs.Regular) (path : Path) : ∀ t ∈ rowOf fs path, Proper t := by
  cases found : fs.find path with
  | error e =>
    rw [rowOf_error found]
    exact List.forall_mem_nil _
  | ok pair =>
    obtain ⟨arrival, node⟩ := pair
    have there := ((find_ok_iff regular.plain path arrival node).mp found).2
    cases Node.Regular.at? regular arrival.place there with
    | file bytes =>
      rw [rowOf_file found]
      exact List.forall_mem_nil _
    | dir _ proper each =>
      rw [rowOf_dir found]
      exact fun t member => (sound_ofEntries _ _ _ _ proper each t member).2

/-- What a failure says that an access was for, if it was a change. -/
def activities : List String :=
  ["Failed to remove", "Failed to create", "Failed to create directory", "Failed to write"]

def Stated (f : Failure) : Prop :=
  ∃ activity ∈ activities, ∃ path, f.context = activity.toList ++ ' ' :: Path.text path

theorem stated_of_change {activity : String} {path : Path}
    {edit : FileSystem → Except FileError FileSystem} {f : Failure} (known : activity ∈ activities)
    (failed : (change activity path edit).run fs = (.error f, later)) : Stated f := by
  rcases run_change_cases failed with ⟨done, _⟩ | ⟨_, cause, same⟩
  · cases done
  · cases same
    exact ⟨activity, known, path, rfl⟩

mutual

theorem write_stated (parent : Path) : ∀ (t : Tree) (fs later : FileSystem) (f : Failure),
    (write parent t).run fs = (.error f, later) → Stated f
  | .leaf _, _, _, _, failed => stated_of_change (by decide) failed
  | .dir name children, fs, later, f, failed => by
    rcases run_bind_cases failed with ⟨e, made, same⟩ | ⟨_, mid, _, written⟩
    · cases same
      exact stated_of_change (by decide) made
    · exact writeAll_stated (Path.join parent (Path.ofText name)) children mid later f written

theorem writeAll_stated (parent : Path) : ∀ (ts : List Tree) (fs later : FileSystem) (f : Failure),
    (writeAll parent ts).run fs = (.error f, later) → Stated f
  | [], _, _, _, failed => nomatch failed
  | t :: ts, fs, later, f, failed => by
    rcases run_bind_cases failed with ⟨e, first, same⟩ | ⟨_, mid, _, rest⟩
    · cases same
      exact write_stated parent t fs later f first
    · exact writeAll_stated parent ts mid later f rest

end

theorem stated_not_list {f : Failure} (stated : Stated f) (source : Path) :
    f.context ≠ "Failed to list".toList ++ ' ' :: Path.text source := by
  obtain ⟨activity, known, path, context⟩ := stated
  have each : ∀ activity ∈ activities,
      10 < activity.toList.length ∧ activity.toList[10]? ≠ some 'l' := by
    decide
  have tenth := each activity known
  intro listing
  have same := congrArg (·[10]?) (context.symm.trans listing)
  simp only [List.getElem?_append_left tenth.1] at same
  rw [List.getElem?_append_left (by decide)] at same
  exact tenth.2 same

end Tree

namespace Request

variable {fs mid later : FileSystem} (r : Request)

/-- Neither the output directory nor a place below it, before as well as after. -/
def Outside (fs later : FileSystem) (q : Place) : Prop :=
  ∀ place, fs.Reaches r.output place ∨ later.Reaches r.output place → ¬ place <+: q

/-- A new directory where the destination leads, with all of its names or only the first of them. -/
def Opened (fs later : FileSystem) (q : Place) : Prop :=
  fs.kind? q = none ∧ later.kind? q = some .dir ∧
    ∃ front, front <+: Path.names r.destination ∧
      go later.kind? (fs.start r.destination) front = .ok q

/-- The results that come before the first change. -/
def Early : Except ConvertError Outcome → Prop
  | .ok (.written _ _) => False
  | .error (.failed f) => f.context = "Failed to list".toList ++ ' ' :: r.source.text
  | _ => True

/-- The names in a tree that is read are names of entries, but for the name of its top. -/
theorem tree_proper (regular : fs.Regular) {tree : Tree} (read : r.tree? fs = .ok (some tree)) :
    Tree.Proper tree ∨
      (fs.isDir r.source = true ∧
        ∃ row, tree = .dir (r.treeName fs) row ∧ ∀ t ∈ row, Tree.Proper t) := by
  unfold tree? at read
  split at read
  · left
    obtain ⟨paths, merged⟩ : ∃ paths, Tree.readMerged? fs paths = some tree := by
      cases listed : Tree.roots fs r.source with
      | error f =>
        rw [listed] at read
        cases read
      | ok paths =>
        rw [listed] at read
        exact ⟨paths, Except.ok.inj read⟩
    rw [Tree.readMerged?, Tree.mergeRoots_eq_dir?, flatMap_filterMap_read, Tree.dir?] at merged
    split at merged
    · cases merged
    · cases merged
      have named : Node.ProperName (Path.ofText Tree.rootName) := by decide
      refine .dir named.toPlainName (Tree.proper_addAllTo _ [] ?_ (List.forall_mem_nil _))
      intro t member
      obtain ⟨path, _, there⟩ := List.mem_flatMap.mp member
      exact Tree.proper_rowOf regular path t there
  · rename_i single
    have read := Except.ok.inj read
    unfold Tree.read? at read
    split at read
    · rename_i arrival entries found
      have there := ((find_ok_iff regular.plain _ _ _).mp found).2
      rw [Tree.dir?] at read
      split at read
      · cases read
      · cases read
        refine .inr ⟨by rw [isDir, found], _, by rw [treeName, if_neg single], ?_⟩
        cases Node.Regular.at? regular arrival.place there with
        | dir _ proper each =>
          exact fun t member => (Tree.sound_ofEntries _ _ _ _ proper each t member).2
    · obtain ⟨l, parsed, rfl⟩ := Option.map_eq_some_iff.mp read
      refine .inl (.leaf ?_)
      rw [Leaf.name_ofSmali parsed]
      exact Leaf.slash_not_mem_nameOf _ (Leaf.slash_not_mem_file_name r.source)
    · cases read

theorem tree_below (regular : fs.Regular) {tree : Tree} (read : r.tree? fs = .ok (some tree))
    (plain : Plain mid) {place : Place} (reaches : mid.Reaches r.output place)
    {result : Except Failure Unit} (ran : (tree.write r.output).run mid = (result, later)) :
    Tree.Below mid later place := by
  rcases r.tree_proper regular read with proper | ⟨directory, row, rfl, proper⟩
  · exact Tree.write_below r.output place tree mid later result proper plain reaches ran
  · rcases run_bind_cases ran with ⟨e, failed, _⟩ | ⟨_, inner, made, _⟩
    · rcases run_change_cases failed with ⟨done, _⟩ | ⟨rfl, _⟩
      · cases done
      · exact .refl plain place
    · have top := (runs_change_iff _ _ _ mid inner).mp made
      have named := (r.top_plain regular directory plain top).1
      exact Tree.write_below r.output place _ mid later result (.dir named proper) plain reaches ran

/-- Outside the output only directories are new that were made for it. -/
theorem outside_grown (here : mid.here = fs.here) {made : FileSystem}
    (grown : Grown mid made r.output) (keeps : Keeps made later) {q : Place}
    (before : mid.kind? q = fs.kind? q) (after : later.kind? q = made.kind? q)
    (outside : r.Outside fs later q) : later.kind? q = fs.kind? q ∨ r.Opened fs later q := by
  rcases grown.kinds q with same | ⟨missing, dir, reaches | ⟨front, part, way⟩⟩
  · exact .inl (after.trans (same.trans before))
  · exact absurd (List.prefix_refl q) (outside q (.inr (keeps.reaches reaches)))
  · have start : mid.start r.output = fs.start r.destination := by
      rw [output, start_join _ outputName_proper.slash]
      simp only [FileSystem.start, here]
    rw [output, Path.names_join _ _ outputName_proper.nonempty outputName_proper.slash
      outputName_proper.dot, List.dropLast_concat] at part
    exact .inr ⟨before ▸ missing, after.trans dir, front, part, start ▸ go_mono keeps.dirs way⟩

theorem replaceOutput_outside (regular : fs.Regular) {tree : Tree}
    (read : r.tree? fs = .ok (some tree)) {result : Except Failure Unit}
    (ran : (r.replaceOutput tree).run fs = (result, later)) {q : Place}
    (outside : r.Outside fs later q) : later.kind? q = fs.kind? q ∨ r.Opened fs later q := by
  rcases r.run_replaceOutput_cases ran with ⟨rfl, _⟩ | ⟨removed, rest⟩
  · exact .inl rfl
  · have plain := r.cleared_plain regular removed
    obtain ⟨here, before⟩ : (r.cleared fs).here = fs.here ∧
        (r.cleared fs).kind? q = fs.kind? q := by
      rcases r.cleared_cases regular removed with ⟨_, same⟩ | ⟨place, reaches, here, kinds⟩
      · rw [same]
        exact ⟨rfl, rfl⟩
      · exact ⟨here, (kinds q).trans (if_neg (outside place (.inl reaches)))⟩
    rcases rest with ⟨_, failed, _⟩ | ⟨mid, made, written⟩
    · have grown := (r.output_grown plain failed).1
      exact r.outside_grown here grown (.refl later) before rfl outside
    · obtain ⟨grown, ended⟩ := r.output_grown plain made
      obtain ⟨place, reaches, _⟩ := ended rfl
      have below := r.tree_below regular read (grown.adds.plain plain) reaches written
      have apart := outside place (.inr (below.keeps.reaches reaches))
      exact r.outside_grown here grown below.keeps before (below.outside q apart) outside

theorem replaceOutput_stated {tree : Tree} {f : Failure}
    (ran : (r.replaceOutput tree).run fs = (.error f, later)) : Tree.Stated f := by
  rcases r.run_replaceOutput_cases ran with
    ⟨_, _, same⟩ | ⟨_, ⟨_, _, same⟩ | ⟨mid, _, written⟩⟩
  · cases same
    exact ⟨"Failed to remove", by decide, r.output, rfl⟩
  · cases same
    exact ⟨"Failed to create", by decide, r.output, rfl⟩
  · exact Tree.write_stated r.output tree mid later f written

/-- However a conversion ends, each place outside its output is as before, but for directories made
where the destination or a part of it leads. A result that comes before the first change leaves
the whole file system as it was. -/
theorem convert_frame (dryRun : Bool) (fs later : FileSystem)
    (result : Except ConvertError Outcome) (regular : fs.Regular)
    (ran : (r.convert dryRun).run fs = (result, later)) :
    (∀ q, r.Outside fs later q → later.kind? q = fs.kind? q ∨ r.Opened fs later q) ∧
      (r.Early result → later = fs) := by
  have untouched (same : later = fs) :
      (∀ q, r.Outside fs later q → later.kind? q = fs.kind? q ∨ r.Opened fs later q) ∧
        (r.Early result → later = fs) :=
    ⟨fun _ _ => .inl (by rw [same]), fun _ => same⟩
  rw [run_convert] at ran
  split at ran
  · cases ran
    exact untouched rfl
  · cases ran
    exact untouched rfl
  · cases ran
    exact untouched rfl
  · rename_i tree _ read
    split at ran
    · cases ran
      exact untouched rfl
    · refine ⟨fun q outside => ?_, fun early => ?_⟩
      · split at ran
        · rename_i replaced
          cases ran
          exact r.replaceOutput_outside regular read replaced outside
        · rename_i replaced
          cases ran
          exact r.replaceOutput_outside regular read replaced outside
      · split at ran
        · cases ran
          exact early.elim
        · rename_i replaced
          cases ran
          exact absurd early (Tree.stated_not_list (r.replaceOutput_stated replaced) r.source)

theorem outside_of_not_mem (q : Place) (absent : outputName ∉ q) :
    r.Outside fs later q := by
  have ends {fs : FileSystem} {place : Place} (reaches : fs.Reaches r.output place) :
      ¬ place <+: q := by
    have arrives := reaches.arrives
    rw [output, Path.steps_join _ _ outputName_proper.nonempty outputName_proper.slash] at arrives
    obtain ⟨above, _, taken⟩ := (go_concat_ok_iff _ _ _ _).mp arrives
    rw [step_named outputName_proper.dot outputName_proper.dots taken]
    exact fun inner => absent (inner.subset (List.mem_append_right above List.mem_cons_self))
  exact fun place reaches => reaches.elim ends ends

/-- A destination with a name that no file system takes. -/
def untaken : Request where
  source := Path.of "s"
  destination := Path.of "d/" ++ List.replicate 256 0x78

/-- The directory above the destination is made before the conversion fails. -/
theorem convert_frame_untaken :
    beside.Regular ∧ ∃ result later, (untaken.convert false).run beside = (result, later) ∧
      untaken.Opened beside later [Path.of "d"] := by
  have regular : beside.Regular := by
    unfold FileSystem.Regular
    decide +kernel
  have differs : ((untaken.convert false).run beside).2.kind? [Path.of "d"] ≠
      beside.kind? [Path.of "d"] := by
    decide +kernel
  generalize ran : (untaken.convert false).run beside = ended at differs
  obtain ⟨result, later⟩ := ended
  have frame := (untaken.convert_frame false beside later result regular ran).1 [Path.of "d"]
    (untaken.outside_of_not_mem _ (by decide))
  exact ⟨regular, result, later, rfl, frame.resolve_left differs⟩

end Request

end SmaliReport
