import SmaliReport.Proofs.Convert.Frame
import SmaliReport.Proofs.Tree.Listing

/-!
A conversion in two file systems that list the same entries in different orders. The trees that are
read differ in the order of siblings, and the reports and the end of the run do not, unless two
reports are written to one place: then the order says which of them is written last. Reports have
the texts of their files' names, and two names may have one text.
-/

namespace SmaliReport

open FileSystem

theorem Leaf.found_kind (path : Path) (name : Name) {node found : Option Node}
    (kinds : found.map Node.kind = node.map Node.kind) :
    Leaf.found? path name found = Leaf.found? path name node := by
  cases node with
  | none =>
    obtain rfl := Option.map_eq_none_iff.mp kinds
    rfl
  | some node =>
    obtain ⟨found, rfl, kind⟩ := Option.map_eq_some_iff.mp kinds
    cases node <;> cases found <;> cases kind <;> rfl

theorem Leaf.met_matches {node found : Node} (alike : node.Matches found) (path : Path)
    (dirs : List Name) (name : Name) :
    Leaf.met? path found dirs name = Leaf.met? path node dirs name := by
  simp only [Leaf.met?, Leaf.accepted?, Leaf.found_kind _ _ (alike (dirs ++ [smaliFile name]))]

theorem Tree.shuffled_walk {node found : Node} (regular : node.Regular)
    (regular_found : found.Regular) (alike : node.Matches found) (path : Path) :
    Shuffled (walk path node) (walk path found) := by
  cases regular with
  | file bytes =>
    have kinds := alike.kind_eq
    cases found with
    | dir others => cases kinds
    | file bytes => exact .refl _
    | link target => exact .refl _
  | dir unique proper each =>
    obtain ⟨others, rfl⟩ := (Node.kind_eq_dir_iff found).mp alike.kind_eq
    rw [walk, walk]
    split
    · exact shuffled_ofEntries unlinked (.dir unique proper each) regular_found alike [] path
    · exact .refl _

namespace Request

variable {fs other later last mid mid_other : FileSystem} (r : Request)

/-- The accepted files below the directories that are walked, at places with these texts, each with
the path of its root. -/
def metAs (fs : FileSystem) (dirs : List Text) (name : Text) : Set (Path × Place × Name) :=
  {file | ∃ node, (file.1, node) ∈ r.walked fs ∧ file.2 ∈ Tree.metAs file.1 node dirs name}

/-- No directory has two accepted files whose names have one text, and there are no two below
several roots whose places have the same texts. -/
def Apart (fs : FileSystem) : Prop := ∀ dirs name,
  ∀ file ∈ r.metAs fs dirs name, ∀ other ∈ r.metAs fs dirs name,
    (r.isMultiRoot fs = false → file.2.1 = other.2.1) → file = other

/-- Where all names are texts, only files below different roots can be in each other's way. -/
theorem apart_of_textual (regular : fs.Regular) (textual : (Node.dir fs.entries).Textual)
    (alone : r.isMultiRoot fs = true → ∀ dirs name, ∀ a ∈ r.walked fs, ∀ b ∈ r.walked fs,
      Leaf.met? a.1 a.2 dirs name ≠ none → Leaf.met? b.1 b.2 dirs name ≠ none → a.1 = b.1) :
    r.Apart fs := by
  rintro dirs name ⟨path, place, stem⟩ ⟨node, member, texts, named, met⟩
    ⟨path_other, place_other, stem_other⟩ ⟨node_other, member_other, texts_other, named_other,
      met_other⟩ _
  obtain ⟨above, own⟩ := Tree.texts_of_met (r.textual_walked regular textual _ member) met
  obtain ⟨above_other, own_other⟩ :=
    Tree.texts_of_met (r.textual_walked regular textual _ member_other) met_other
  simp only at texts texts_other named named_other above above_other own own_other met met_other
  obtain rfl : place = place_other := by rw [← above, ← above_other, texts, texts_other]
  obtain rfl : stem = stem_other := by rw [← own, ← own_other, named, named_other]
  have same : path = path_other := by
    cases multi : r.isMultiRoot fs with
    | true => exact alone multi place stem _ member _ member_other met met_other
    | false =>
      obtain ⟨arrival, entries, found⟩ := r.find_of_walked member
      rw [r.walked_source found multi, List.mem_singleton] at member member_other
      exact (Prod.mk.inj (member.trans member_other.symm)).1
  rw [same]

theorem paths_walked (regular : fs.Regular) : (r.walked fs).Pairwise fun a b => a.1 ≠ b.1 := by
  unfold walked
  split
  · rename_i arrival entries found
    have regular_source := source_regular regular found
    split
    · have names : entries.Pairwise fun e f => e.1 ≠ f.1 :=
        List.pairwise_map.mp regular_source.unique
      refine List.pairwise_map.mpr ((names.filter isRoot).imp_of_mem ?_)
      intro e f member member_other differ same
      have named {e : Name × Node} (member : e ∈ entries.filter isRoot) : Node.ProperName e.1 :=
        regular_source.named e (List.mem_filter.mp member).1
      have parts := congrArg Path.parts same
      rw [Path.parts_join _ _ (named member).nonempty (named member).slash,
        Path.parts_join _ _ (named member_other).nonempty (named member_other).slash] at parts
      exact differ (by simpa using parts)
    · exact List.pairwise_singleton _ _
  · exact .nil

/-- Where no two files are at places with the same texts, there is one leaf at most in a place. -/
theorem length_leaves_row (regular : fs.Regular) (dirs : List Text) (name : Text)
    (alone : (r.metAs fs dirs name).Subsingleton) :
    (Tree.leavesNamed (r.row fs) dirs name).length ≤ 1 := by
  have some_met (root : Path × Node) (member : root ∈ r.walked fs)
      (leaves : Tree.leavesNamed (Tree.walk root.1 root.2) dirs name ≠ []) :
      ∃ file ∈ r.metAs fs dirs name, file.1 = root.1 := by
    obtain ⟨l, leaf⟩ := List.exists_mem_of_ne_nil _ leaves
    obtain ⟨above, stem, texts, named, met⟩ :=
      (Tree.mem_walk_iff root.1 (r.regular_walked regular root member) dirs name l).mp leaf
    exact ⟨(root.1, above, stem), ⟨root.2, member, texts, named, by simp [met]⟩, rfl⟩
  rw [r.leaves_row]
  refine Tree.length_flatMap_le_one _ _ (fun root member => ?_) ?_
  · refine Tree.length_walk_le_one root.1 (r.regular_walked regular root member) dirs name ?_
    intro file met file_other met_other
    have here : (root.1, file) ∈ r.metAs fs dirs name := ⟨root.2, member, met⟩
    have here_other : (root.1, file_other) ∈ r.metAs fs dirs name := ⟨root.2, member, met_other⟩
    exact (Prod.mk.inj (alone here here_other)).2
  · refine (r.paths_walked regular).imp_of_mem fun {a b} member member_other differ => ?_
    by_contra both
    rw [not_or] at both
    obtain ⟨file, met, path⟩ := some_met a member both.1
    obtain ⟨file_other, met_other, path_other⟩ := some_met b member_other both.2
    rw [alone met met_other] at path
    exact differ (path.symm.trans path_other)

/-- A tree that can be written has no two leaves in one place. -/
theorem single_row (regular : fs.Regular) (directory : fs.isDir r.source = true)
    (apart : r.Apart fs) (unique : ∀ dirs, (Tree.dirNames (Tree.rowAt dirs (r.row fs))).Nodup) :
    Tree.Single (r.row fs) := by
  intro dirs name
  apply r.length_leaves_row regular
  intro file met file_other met_other
  refine apart dirs name file met file_other met_other fun single => ?_
  obtain ⟨arrival, entries, found⟩ := find_of_isDir directory
  have fits := ((find_ok_iff regular.plain _ _ _).mp found).1.1.fits
  have walked := r.walked_source found single
  have row : r.row fs = Tree.ofEntries Tree.unlinked [] r.source entries := by
    simp [Request.row, single, walked, Tree.walk, fits]
  rw [row] at unique
  have own {file : Path × Place × Name} (met : file ∈ r.metAs fs dirs name) :
      file.2 ∈ Tree.metAs r.source (.dir entries) dirs name := by
    obtain ⟨node, member, met⟩ := met
    rw [walked, List.mem_singleton, Prod.mk.injEq] at member
    rwa [member.1, member.2] at met
  exact Tree.above_of_metAs _ _ _ entries (source_regular regular found) unique dirs name (own met)
    (own met_other)

/-- There are no roots in a file. -/
theorem single_of_file (plain : Plain fs) {arrival : Arrival} {bytes : List UInt8}
    (found : fs.find r.source = .ok (arrival, .file bytes)) : r.isMultiRoot fs = false := by
  cases roots : Tree.hasRoots fs r.source with
  | false => simp [isMultiRoot, roots]
  | true =>
    obtain ⟨⟨reaches, _⟩, _⟩ := (find_ok_iff plain _ _ _).mp found
    obtain ⟨place, leads, _⟩ := (has_iff plain _).mp roots
    obtain ⟨above, reaches_dir, taken⟩ := leads.above reaches.given (by decide) (by decide)
    have dir := (isDir_iff plain r.source).mpr ⟨above, reaches_dir, step_ok_dir taken⟩
    rw [isDir, found] at dir
    cases dir

/-- What is no directory, but there, is a file. -/
theorem find_file (plain : Plain fs) (checked : r.check fs = .ok ())
    (file : fs.isDir r.source = false) :
    ∃ arrival bytes, fs.find r.source = .ok (arrival, .file bytes) := by
  have there : fs.has r.source = true := by
    unfold check at checked
    split at checked
    · cases checked
    · rename_i there
      simpa using there
  cases found : fs.find r.source with
  | error e =>
    rw [has, found] at there
    cases there
  | ok pair =>
    obtain ⟨arrival, node⟩ := pair
    obtain ⟨_, at_place⟩ := (find_ok_iff plain _ _ _).mp found
    cases node with
    | file bytes => exact ⟨arrival, bytes, rfl⟩
    | link target => exact absurd (by rw [kind?, at_place]; rfl) (plain arrival.place target)
    | dir entries =>
      rw [isDir, found] at file
      cases file

section Same

variable (regular : fs.Regular) (regular_other : other.Regular) (same : SameContent fs other)

include regular same

theorem check_same : r.check other = r.check fs := by
  simp only [check, has_same regular.plain same, isDir_same regular.plain same]

theorem isMultiRoot_same : r.isMultiRoot other = r.isMultiRoot fs := by
  simp only [isMultiRoot, Tree.hasRoots, has_same regular.plain same]

theorem treeName_same : r.treeName other = r.treeName fs := by
  have canonical : other.canonical r.source = fs.canonical r.source := by
    unfold canonical
    rcases find_same regular.plain same r.source with
      ⟨e, first, second⟩ | ⟨arrival, node, found, first, second, _⟩
    · rw [first, second]
    · rw [first, second]
      rfl
  simp only [treeName, r.isMultiRoot_same regular same, Tree.rootNameOf, canonical]

theorem find_file_same (checked : r.check fs = .ok ()) (file : fs.isDir r.source = false) :
    ∃ arrival bytes, fs.find r.source = .ok (arrival, .file bytes) ∧
      other.find r.source = .ok (arrival, .file bytes) := by
  obtain ⟨arrival, bytes, found⟩ := r.find_file regular.plain checked file
  obtain ⟨relisted, found_other, alike⟩ := find_ok_same regular.plain same found
  have kinds := alike.kind_eq
  cases relisted <;> cases kinds
  exact ⟨arrival, bytes, found, found_other⟩

theorem find_dir_same {arrival : Arrival} {entries : List (Name × Node)}
    (found : fs.find r.source = .ok (arrival, .dir entries)) :
    ∃ others, other.find r.source = .ok (arrival, .dir others) ∧
      (Node.dir entries).Matches (.dir others) := by
  obtain ⟨relisted, found_other, alike⟩ := find_ok_same regular.plain same found
  obtain ⟨others, rfl⟩ := (Node.kind_eq_dir_iff relisted).mp alike.kind_eq
  exact ⟨others, found_other, alike⟩

theorem mem_walked_same {path : Path} {node : Node} (member : (path, node) ∈ r.walked fs) :
    ∃ found, (path, found) ∈ r.walked other ∧ node.Matches found := by
  obtain ⟨arrival, entries, found⟩ := r.find_of_walked member
  obtain ⟨others, found_other, alike⟩ := r.find_dir_same regular same found
  have multi_same := r.isMultiRoot_same regular same
  cases multi : r.isMultiRoot fs with
  | false =>
    rw [r.walked_source found multi, List.mem_singleton] at member
    obtain ⟨rfl, rfl⟩ := Prod.mk.inj member
    rw [r.walked_source found_other (multi_same.trans multi)]
    exact ⟨_, List.mem_singleton_self _, alike⟩
  | true =>
    rw [r.walked_roots found multi] at member
    obtain ⟨e, root, same_entry⟩ := List.mem_map.mp member
    obtain ⟨rfl, rfl⟩ := Prod.mk.inj same_entry
    obtain ⟨listed, is_root⟩ := List.mem_filter.mp root
    have unique := (source_regular regular found).unique
    obtain ⟨relisted, there, below⟩ := alike.lookup (Node.lookup_of_mem unique listed)
    rw [r.walked_roots found_other (multi_same.trans multi)]
    refine ⟨relisted, List.mem_map.mpr ⟨_, List.mem_filter.mpr ⟨Node.mem_of_lookup there, ?_⟩, rfl⟩,
      below⟩
    rwa [isRoot, below.kind_eq]

theorem metAs_subset (dirs : List Text) (name : Text) :
    r.metAs fs dirs name ⊆ r.metAs other dirs name := by
  rintro file ⟨node, member, texts, named, met⟩
  obtain ⟨found, member_other, alike⟩ := r.mem_walked_same regular same member
  refine ⟨found, member_other, texts, named, ?_⟩
  rwa [Leaf.met_matches alike]

include regular_other

theorem apart_same (apart : r.Apart fs) : r.Apart other := by
  intro dirs name file met file_other met_other above
  have back := r.metAs_subset regular_other same.symm dirs name
  refine apart dirs name file (back met) file_other (back met_other) fun single => ?_
  exact above ((r.isMultiRoot_same regular same).trans single)

theorem row_same (directory : fs.isDir r.source = true) :
    Tree.Shuffled (r.row fs) (r.row other) := by
  obtain ⟨arrival, entries, found⟩ := find_of_isDir directory
  obtain ⟨others, found_other, alike⟩ := r.find_dir_same regular same found
  have multi_same := r.isMultiRoot_same regular same
  have regular_source := source_regular regular found
  have regular_relisted := source_regular regular_other found_other
  unfold row
  cases multi : r.isMultiRoot fs with
  | false =>
    have single := multi_same.trans multi
    rw [r.walked_source found multi, r.walked_source found_other single, single]
    simp only [Bool.false_eq_true, if_false, List.flatMap_singleton]
    exact Tree.shuffled_walk regular_source regular_relisted alike r.source
  | true =>
    have several := multi_same.trans multi
    rw [r.walked_roots found multi, r.walked_roots found_other several, several]
    simp only [if_true, List.flatMap_map, flatMap_filter]
    refine Tree.Shuffled.merged (Tree.Shuffled.of_alike alike regular_source.unique
      regular_relisted.unique
      (fun name node =>
        if isRoot (name, node) then Tree.walk (Path.join r.source name) node else [])
      fun name node relisted member there below => ?_)
    have kept : isRoot (name, relisted) = isRoot (name, node) := by
      rw [isRoot, isRoot, below.kind_eq]
    rw [kept]
    split
    · exact Tree.shuffled_walk (regular_source.each _ member) (regular_relisted.each _ there)
        below _
    · exact .refl _

/-- A request that passes its check reads a directory, or a file that is named itself. -/
theorem tree_same (checked : r.check fs = .ok ()) (apart : r.Apart fs) :
    (r.tree? fs = .ok none ∧ r.tree? other = .ok none) ∨
      ∃ tree relisted, r.tree? fs = .ok (some tree) ∧ r.tree? other = .ok (some relisted) ∧
        Tree.Shuffled [tree] [relisted] ∧ relisted.leaves.length = tree.leaves.length ∧
        (Tree.Proper tree → Tree.Proper relisted) ∧
        ((∀ dirs, (Tree.dirNames (Tree.rowAt dirs [tree])).Nodup) → Tree.Single [tree]) := by
  cases directory : fs.isDir r.source with
  | false =>
    obtain ⟨arrival, bytes, found, found_other⟩ := r.find_file_same regular same checked directory
    have single := r.single_of_file regular.plain found
    have single_other := (r.isMultiRoot_same regular same).trans single
    simp only [tree?, single, single_other, Bool.false_eq_true, if_false, Tree.read?, found,
      found_other]
    cases read : Leaf.ofFile? ((Path.fileName? r.source).getD []) bytes with
    | none => exact .inl ⟨rfl, rfl⟩
    | some l => exact .inr ⟨_, _, rfl, rfl, .refl _, rfl, id, fun _ => Tree.single_leaf l⟩
  | true =>
    have directory_other := (isDir_same regular.plain same r.source).trans directory
    have shuffled := r.row_same regular regular_other same directory
    rw [r.tree_row regular directory, r.tree_row regular_other directory_other,
      r.treeName_same regular same]
    unfold Tree.dir?
    by_cases nothing : r.row fs = []
    · rw [nothing, shuffled.eq_nil nothing]
      exact .inl ⟨rfl, rfl⟩
    · have something : r.row other ≠ [] := fun empty => nothing (shuffled.symm.eq_nil empty)
      rw [if_neg (by simpa using nothing), if_neg (by simpa using something)]
      refine .inr ⟨_, _, rfl, rfl, shuffled.dir (r.treeName fs), shuffled.leavesOf, ?_, ?_⟩
      · rintro (_ | ⟨named, _⟩)
        exact .dir named (r.sound_row regular_other).1
      · intro unique
        exact Tree.single_dir (r.single_row regular directory apart
          (Tree.unique_inner unique List.mem_cons_self)) _

end Same

section Replace

theorem cleared_same (regular : fs.Regular) (regular_other : other.Regular)
    (same : SameContent fs other)
    (removed : (r.force && fs.has r.output) = true → fs.removeAll r.output = .ok (r.cleared fs)) :
    SameContent (r.cleared fs) (r.cleared other) ∧
      ((r.force && other.has r.output) = true →
        other.removeAll r.output = .ok (r.cleared other)) := by
  have there := has_same regular.plain same r.output
  cases old : r.force && fs.has r.output with
  | false =>
    have old_other : (r.force && other.has r.output) = false := there ▸ old
    simp only [cleared, old, old_other, Bool.false_eq_true, if_false]
    exact ⟨same, nofun⟩
  | true =>
    have old_other : (r.force && other.has r.output) = true := there ▸ old
    have ended := removeAll_same regular regular_other regular.plain same r.output
    have first := removed old
    rw [first] at ended
    generalize again : other.removeAll r.output = second at ended
    cases ended with
    | ok plain same =>
      simp only [cleared, old_other, again, if_true]
      exact ⟨same, fun _ => rfl⟩

/-- The run from its parts: the old output removed, the new one made, and the tree written. -/
theorem runs_replaceOutput_of {tree : Tree}
    (removed : (r.force && fs.has r.output) = true → fs.removeAll r.output = .ok (r.cleared fs))
    (made : Runs (makeDirs r.output) (r.cleared fs) () mid)
    (written : Runs (tree.write r.output) mid () later) :
    Runs (r.replaceOutput tree) fs () later := by
  have rest : (changes "Failed to create" r.output (makeDirs r.output) >>= fun _ =>
      tree.write r.output).run (r.cleared fs) = (.ok (), later) := by
    refine (runs_bind_iff _ _ _ _ _).mpr ⟨(), mid, ?_, written⟩
    rw [Runs, changes, run_adapt, made]
  unfold Runs replaceOutput
  simp only [run_bind _ _ fs, run_get]
  by_cases old : (r.force && fs.has r.output) = true
  · rw [if_pos old]
    refine (runs_bind_iff _ _ _ _ _).mpr ⟨(), r.cleared fs, ?_, rest⟩
    rw [runs_change_iff]
    exact removed old
  · rw [if_neg old]
    have whole : r.cleared fs = fs := by rw [cleared, if_neg old]
    rw [whole] at rest
    exact rest

theorem proper_of_written (regular : fs.Regular) {tree : Tree}
    (read : r.tree? fs = .ok (some tree)) (plain : Plain mid)
    (written : Runs (tree.write r.output) mid () later) : Tree.Proper tree := by
  rcases r.tree_proper regular read with proper | ⟨directory, row, rfl, proper⟩
  · exact proper
  · obtain ⟨_, inner, top, _⟩ := (runs_bind_iff _ _ mid later ()).mp written
    rw [runs_change_iff] at top
    exact .dir (r.top_plain regular directory plain top).1 proper

theorem replaceOutput_same (regular : fs.Regular) (regular_other : other.Regular)
    (same : SameContent fs other) {tree relisted : Tree} (read : r.tree? fs = .ok (some tree))
    (shuffled : Tree.Shuffled [tree] [relisted]) (proper : Tree.Proper tree → Tree.Proper relisted)
    (single : (∀ dirs, (Tree.dirNames (Tree.rowAt dirs [tree])).Nodup) → Tree.Single [tree])
    (ran : Runs (r.replaceOutput tree) fs () later) :
    ∃ last, Runs (r.replaceOutput relisted) other () last ∧ SameContent later last := by
  obtain ⟨mid, removed, made, written⟩ := r.runs_replaceOutput ran
  obtain ⟨same_cleared, removed_other⟩ := r.cleared_same regular regular_other same removed
  obtain ⟨mid_other, made_other, same_mid⟩ :=
    (makeDirs_blind r.output).runs (r.cleared_plain regular removed) same_cleared made
  obtain ⟨plain, place, reaches, dir⟩ := r.output_dir regular removed made
  have proper_tree := r.proper_of_written regular read plain written
  have reaches_other := (same_mid.reaches_iff r.output place).mpr reaches
  have dir_other := (same_mid.kinds place).trans dir
  have writable := (Tree.runs_write_iff r.output place tree mid proper_tree plain reaches dir).mp
    ⟨later, written⟩
  obtain ⟨last, written_other⟩ := (Tree.runs_write_iff r.output place relisted mid_other
    (proper proper_tree) (same_mid.plain plain) reaches_other dir_other).mpr
      (shuffled.writable same_mid writable)
  refine ⟨last, r.runs_replaceOutput_of removed_other made_other written_other, ?_⟩
  exact shuffled.wrote (single writable.unique) same_mid writable
    (Tree.write_wrote r.output place tree mid later proper_tree plain reaches written)
    (Tree.write_wrote r.output place relisted mid_other last (proper proper_tree)
      (same_mid.plain plain) reaches_other written_other)

end Replace

/-- What the run in the second file system repeats of a run in the first. -/
theorem run_same (regular : fs.Regular) (regular_other : other.Regular)
    (same : SameContent fs other) (apart : r.Apart fs)
    {result relisted : Except ConvertError Outcome}
    (ran : (r.convert false).run fs = (result, later))
    (again : (r.convert false).run other = (relisted, last)) :
    (result = .ok .nothingFound → relisted = .ok .nothingFound) ∧
      ∀ output leaves, result = .ok (.written output leaves) →
        relisted = .ok (.written output leaves) ∧ SameContent later last := by
  have check := r.check_same regular same
  cases checked : r.check fs with
  | error e =>
    rw [run_convert, checked] at ran
    cases ran
    exact ⟨nofun, nofun⟩
  | ok done =>
    rw [checked] at check
    rcases r.tree_same regular regular_other same checked apart with
      ⟨read, read_other⟩ | ⟨tree, tree_other, read, read_other, shuffled, count, proper, single⟩
    · rw [r.run_nothing checked read] at ran
      rw [r.run_nothing check read_other] at again
      cases ran
      cases again
      exact ⟨fun _ => rfl, nofun⟩
    · rw [r.run_tree checked read] at ran
      rw [r.run_tree check read_other] at again
      cases replaced : (r.replaceOutput tree).run fs with
      | mk ended changed =>
        rw [replaced] at ran
        cases ended with
        | error e =>
          cases ran
          exact ⟨nofun, nofun⟩
        | ok done =>
          cases ran
          refine ⟨nofun, fun output leaves written => ?_⟩
          cases written
          obtain ⟨final, replaced_other, same_later⟩ :=
            r.replaceOutput_same regular regular_other same read shuffled proper single
              replaced
          rw [replaced_other, count] at again
          cases again
          exact ⟨rfl, same_later⟩

/-- Two roots without a file at the same place below them. -/
def twoRoots : List (Name × Node) := [
  (Path.of "smali", .dir [(Path.of "A.smali", .file (facadeOf "first"))]),
  (Path.of "smali_2", .dir [(Path.of "B.smali", .file (facadeOf "second"))])]

def listed (entries : List (Name × Node)) : FileSystem where
  entries := [(Path.of "apk", .dir entries)]

theorem listed_same {entries others : List (Name × Node)} (perm : entries.Perm others)
    (unique : (entries.map (·.1)).Nodup) : SameContent (listed entries) (listed others) where
  here := rfl
  kinds q := by
    cases q with
    | nil => rfl
    | cons first rest =>
      simp only [kind?, node?, listed, Node.at?, List.lookup_cons]
      split
      · exact Node.Matches.of_perm perm unique rest
      · rfl

/-- In a directory with nothing else but one smali file, that is the file a walk meets. -/
theorem met_only {path : Path} {own : Name} {bytes : List UInt8} {above : Place} {stem : Name}
    (met : Leaf.met? path (.dir [(smaliFile own, .file bytes)]) above stem ≠ none) :
    stem = own := by
  cases above with
  | nil =>
    rw [Tree.met_here, List.lookup_cons] at met
    by_cases same : smaliFile stem = smaliFile own
    · exact Tree.smaliFile_injective same
    · rw [beq_false_of_ne same] at met
      exact absurd rfl met
  | cons first rest =>
    refine absurd ?_ met
    simp only [Leaf.met?, Leaf.accepted?, List.cons_append, Node.at?, List.lookup_cons,
      List.lookup_nil]
    cases first == smaliFile own <;> cases rest <;> simp [Leaf.found?, Node.at?]

theorem apart_twoRoots (regular : (listed twoRoots).Regular) : update.Apart (listed twoRoots) := by
  refine update.apart_of_textual regular (by decide +kernel) fun _ dirs name => ?_
  have walked : update.walked (listed twoRoots) =
      twoRoots.map fun e => (Path.join (Path.of "apk") e.1, e.2) := rfl
  rw [walked, twoRoots, List.map_cons, List.map_cons, List.map_nil]
  simp only [List.forall_mem_cons, List.not_mem_nil, false_imp_iff, implies_true, and_true,
    true_and]
  refine ⟨fun first second => ?_, fun second first => ?_⟩
  all_goals
    have own := @met_only _ (Path.of "A") _ _ _ first
    rw [@met_only _ (Path.of "B") _ _ _ second] at own
    cases own

/-- Two files in one directory whose names are read as the same text. -/
def twins : List (Name × Node) := [
  (0xFF :: Path.of ".smali", .file (facadeOf "first")),
  (0xFE :: Path.of ".smali", .file (facadeOf "second"))]

/-- The place of the report of both. -/
def twinReport : Place := [Path.of "out", outputName, Path.of "apk", Path.of "\uFFFD.txt"]

end Request

end SmaliReport
