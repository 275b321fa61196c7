import SmaliReport.Proofs.Convert.Order
import SmaliReport.Proofs.FileSystem.Remade
import SmaliReport.Proofs.Tree.Reread

/-!
Running a conversion again. The second run removes what the first has written and writes the same
once more, also if the reports lie in the source: nothing is read of them. For this the paths have to
lead the second run where they have led the first, which they do if they go down only.
-/

namespace SmaliReport

open FileSystem

namespace FileSystem

variable {fs later : FileSystem}

instance (fs : FileSystem) (path : Path) (place : Place) : Decidable (fs.Reaches path place) :=
  decidable_of_iff (0 ∉ path ∧ path ≠ [] ∧ Path.fits path ∧
      go fs.kind? (fs.start path) (Path.steps path) = .ok place)
    ⟨fun ⟨nul, given, fits, arrives⟩ => ⟨nul, given, fits, arrives⟩,
      fun reaches => ⟨reaches.nul, reaches.given, reaches.fits, reaches.arrives⟩⟩

theorem remove_regular (regular : (Node.dir fs.entries).Regular) (place : Place) :
    (Node.dir (fs.remove place).entries).Regular := by
  rcases List.eq_nil_or_concat place with rfl | ⟨above, name, rfl⟩
  · exact regular
  · rw [List.concat_eq_append]
    refine regular.alterAt above ⟨fun _ _ _ made => ?_, .inl rfl⟩
    cases made

theorem removeAll_of_dir (plain : Plain fs) {path : Path} {place : Place}
    (reaches : fs.Reaches path place) (dir : fs.kind? place = some .dir) :
    fs.removeAll path = .ok (fs.remove place) := by
  have located := (locate_ok_iff plain false path ⟨place, 40⟩).mpr ⟨reaches, rfl⟩
  obtain ⟨entries, there⟩ := (kind?_eq_dir_iff fs place).mp dir
  simp only [removeAll, located, bind, Except.bind, there]

end FileSystem

namespace Request

variable {fs mid later : FileSystem} (r : Request)

section Read

variable (regular : fs.Regular) (regular_later : later.Regular) {arrival again : Arrival}
  {entries others : List (Name × Node)} (found : fs.find r.source = .ok (arrival, .dir entries))
  (found_later : later.find r.source = .ok (again, .dir others))
  (roots : others.filter (fun e => Tree.rootName.isPrefixOf (Path.text e.1)) =
    entries.filter fun e => Tree.rootName.isPrefixOf (Path.text e.1))

include regular regular_later found found_later roots

theorem multi_eq : r.isMultiRoot later = r.isMultiRoot fs := by
  have named : Node.ProperName (Path.ofText Tree.rootName) := by decide
  have lookup : others.lookup (Path.ofText Tree.rootName) =
      entries.lookup (Path.ofText Tree.rootName) := by
    rw [← Node.lookup_filter (Tree.rootName.isPrefixOf <| Path.text ·) others _ (by decide), roots,
      Node.lookup_filter (Tree.rootName.isPrefixOf <| Path.text ·) entries _ (by decide)]
  have has : Tree.hasRoots later r.source = Tree.hasRoots fs r.source := by
    rw [Bool.eq_iff_iff, Tree.hasRoots, Tree.hasRoots, has_join regular found named,
      has_join regular_later found_later named, lookup]
  rw [isMultiRoot, isMultiRoot, has]

/-- The tree is said by the entries that are named like roots and by what is read of all. -/
theorem tree_eq (place : again.place = arrival.place)
    (row : Tree.ofEntries Tree.unlinked [] r.source others =
      Tree.ofEntries Tree.unlinked [] r.source entries) : r.tree? later = r.tree? fs := by
  have regular_dir := source_regular regular found
  have regular_dir_later := source_regular regular_later found_later
  unfold tree?
  rw [r.multi_eq regular regular_later found found_later roots]
  split
  · have rows : ∀ e ∈ entries.filter fun e => Tree.rootName.isPrefixOf (Path.text e.1),
        Tree.rowOf later (Path.join r.source e.1) = Tree.rowOf fs (Path.join r.source e.1) := by
      intro e member
      have member_later := roots ▸ member
      rw [rowOf_join regular found
          (Node.lookup_of_mem regular_dir.unique (List.mem_filter.mp member).1),
        rowOf_join regular_later found_later
          (Node.lookup_of_mem regular_dir_later.unique (List.mem_filter.mp member_later).1)]
    simp only [Tree.roots_of_found found, Tree.roots_of_found found_later, roots, Except.map,
      Tree.readMerged?, Tree.mergeRoots_eq_dir?, flatMap_filterMap_read, List.flatMap_map,
      List.flatMap_congr rows]
  · have name : Tree.rootNameOf later r.source = Tree.rootNameOf fs r.source := by
      simp only [Tree.rootNameOf, canonical, found, found_later, bind, Except.bind, place]
    simp only [Tree.read?, found, found_later, name,
      Tree.ofEntries_linked _ _ [] _ _ regular_dir.each,
      Tree.ofEntries_linked _ _ [] _ _ regular_dir_later.each, row]

end Read

section Besides

/-- The name of an entry that is no root and is not read as a file. -/
structure Unread (name : Name) : Prop where
  unrooted : Tree.rootName.isPrefixOf (Path.text name) = false
  extension : Tree.isSmali name = false

variable {name : Name} (unread : Unread name)

include unread

theorem roots_besides (entries : List (Name × Node)) :
    (entries.filter (·.1 ≠ name)).filter (fun e => Tree.rootName.isPrefixOf (Path.text e.1)) =
      entries.filter fun e => Tree.rootName.isPrefixOf (Path.text e.1) := by
  rw [List.filter_filter]
  refine List.filter_congr fun e _ => ?_
  cases root : Tree.rootName.isPrefixOf (Path.text e.1) with
  | false => rfl
  | true =>
    have other : e.1 ≠ name := by
      rintro rfl
      rw [unread.unrooted] at root
      cases root
    simpa using other

theorem row_besides (regular : fs.Regular) {source : Place} {entries : List (Name × Node)}
    (there : fs.node? source = some (.dir entries))
    (barren : ∀ node, fs.node? (source ++ [name]) = some node → node.Barren) (path : Path) :
    Tree.ofEntries Tree.unlinked [] path (entries.filter (·.1 ≠ name)) =
      Tree.ofEntries Tree.unlinked [] path entries := by
  refine Tree.ofEntries_besides _ _ _ _ entries fun node member => ?_
  have regular_dir := Node.Regular.at? regular source there
  have lookup := Node.lookup_of_mem regular_dir.unique member
  have at_place : fs.node? (source ++ [name]) = some node := by
    rw [node?, Node.at?_append, ← node?, there]
    exact (Node.at?_child entries name).trans lookup
  exact Tree.ofNode_barren _ _ _ _ node (Node.Regular.at? regular _ at_place) unread.extension
    (barren node at_place)

/-- The tree is said by what the source has besides an entry that nothing is read of. -/
theorem tree_of_besides (regular : fs.Regular) (regular_later : later.Regular) {source : Place}
    (reads : fs.Reaches r.source source) (reads_later : later.Reaches r.source source)
    (dir : later.kind? source = some .dir)
    (barren : ∀ node, fs.node? (source ++ [name]) = some node → node.Barren)
    (barren_later : ∀ node, later.node? (source ++ [name]) = some node → node.Barren)
    (same : (later.node? source).map (Node.besides name) =
      (fs.node? source).map (Node.besides name)) : r.tree? later = r.tree? fs := by
  obtain ⟨others, there_later⟩ := (kind?_eq_dir_iff later source).mp dir
  rw [there_later] at same
  obtain ⟨node, there, same⟩ := Option.map_eq_some_iff.mp same.symm
  obtain ⟨entries, rfl⟩ : ∃ entries, node = .dir entries := by
    cases node with
    | dir entries => exact ⟨entries, rfl⟩
    | file bytes => cases same
    | link target => cases same
  have same : entries.filter (·.1 ≠ name) = others.filter (·.1 ≠ name) := Node.dir.inj same
  have found := (find_ok_iff regular.plain r.source ⟨source, 40⟩ _).mpr ⟨⟨reads, rfl⟩, there⟩
  have found_later := (find_ok_iff regular_later.plain r.source ⟨source, 40⟩ _).mpr
    ⟨⟨reads_later, rfl⟩, there_later⟩
  refine r.tree_eq regular regular_later found found_later ?_ rfl ?_
  · rw [← roots_besides unread others, ← roots_besides unread entries, same]
  · rw [← row_besides unread regular_later there_later barren_later,
      ← row_besides unread regular there barren, same]

end Besides

theorem tree_of_node (regular : fs.Regular) (regular_later : later.Regular) {source : Place}
    (reads : fs.Reaches r.source source) (reads_later : later.Reaches r.source source)
    (there : fs.kind? source ≠ none) (same : later.node? source = fs.node? source) :
    r.tree? later = r.tree? fs := by
  cases at_source : fs.node? source with
  | none => exact absurd ((kind?_eq_none_iff fs source).mpr at_source) there
  | some node =>
    have found := (find_ok_iff regular.plain r.source ⟨source, 40⟩ _).mpr ⟨⟨reads, rfl⟩, at_source⟩
    have found_later := (find_ok_iff regular_later.plain r.source ⟨source, 40⟩ _).mpr
      ⟨⟨reads_later, rfl⟩, same.trans at_source⟩
    cases node with
    | dir entries => exact r.tree_eq regular regular_later found found_later rfl rfl rfl
    | file bytes =>
      simp only [tree?, r.single_of_file regular.plain found,
        r.single_of_file regular_later.plain found_later, Bool.false_eq_true, if_false,
        Tree.read?, found, found_later]
    | link target => exact absurd (by rw [kind?, at_source]; rfl) (regular.plain source target)

/-- The output lies in what the destination leads to. -/
theorem output_place {place : Place} (reaches : fs.Reaches r.output place) :
    ∃ above, place = above ++ [outputName] ∧ fs.kind? above = some .dir ∧
      go fs.kind? (fs.start r.destination) (Path.parts r.destination) = .ok above := by
  have arrives := reaches.arrives
  rw [output, start_join _ outputName_proper.slash,
    Path.steps_join _ _ outputName_proper.nonempty outputName_proper.slash] at arrives
  obtain ⟨above, way, taken⟩ := (go_concat_ok_iff _ _ _ _).mp arrives
  exact ⟨above, step_named outputName_proper.dot outputName_proper.dots taken, step_ok_dir taken,
    way⟩

/-- The source is not in the output, the destination is the source or not in it, and an old output
has no smali files. -/
structure Separate (fs : FileSystem) (source place : Place) : Prop where
  beside : ¬ place <+: source
  outside : place.dropLast = source ∨ ¬ source <+: place.dropLast
  barren : ∀ node, fs.node? place = some node → node.Barren

/-- What the paths of a request have to meet for a second run to find what the first has found. -/
structure Steady (r : Request) (fs later : FileSystem) (source place : Place) : Prop where
  /-- An old output is found, so that it is removed. -/
  found : fs.has r.output = false → fs.kind? place = none
  /-- No directory is made in the source for the destination's path, but in the output. -/
  clear : ∀ front q, front <+: Path.names r.destination →
    go later.kind? (fs.start r.destination) front = .ok q → source <+: q → fs.kind? q = none →
      place <+: q
  /-- The directories in the output that the source's path goes through are made again. -/
  through : ∀ front q, front <+: Path.steps r.source →
    go fs.kind? (fs.start r.source) front = .ok q → place <+: q → later.kind? q = some .dir

/-- A run that has removed an old output, has made a new one, in `mid`, and has written it. -/
structure Replaced (r : Request) (fs mid later : FileSystem) (place : Place) (tree : Tree) :
    Prop where
  regular : fs.Regular
  forced : r.force = true
  removed : (r.force && fs.has r.output) = true → fs.removeAll r.output = .ok (r.cleared fs)
  made : Runs (makeDirs r.output) (r.cleared fs) () mid
  reaches : mid.Reaches r.output place
  proper : Tree.Proper tree
  written : Runs (tree.write r.output) mid () later

/-- Where a run may change something: in the output, and outside of the source where nothing was. -/
def Touched (fs : FileSystem) (source place q : Place) : Prop :=
  place <+: q ∨ (fs.kind? q = none ∧ ¬ source <+: q)

namespace Replaced

variable {r} {source place : Place} {tree : Tree} (run : r.Replaced fs mid later place tree)

include run

theorem grown : Grown (r.cleared fs) mid r.output :=
  (r.output_grown (r.cleared_plain run.regular run.removed) run.made).1

theorem plain : Plain mid :=
  run.grown.adds.plain (r.cleared_plain run.regular run.removed)

theorem dir : mid.kind? place = some .dir := by
  obtain ⟨_, other, reaches, dir⟩ := r.output_dir run.regular run.removed run.made
  exact run.reaches.unique reaches ▸ dir

theorem wrote : Tree.Wrote mid later place [tree] :=
  Tree.write_wrote r.output place tree mid later run.proper run.plain run.reaches run.written

theorem reaches_later : later.Reaches r.output place := run.wrote.keeps.reaches run.reaches

theorem dir_later : later.kind? place = some .dir := run.wrote.keeps.dirs place run.dir

theorem given : place ≠ [] := by
  obtain ⟨above, whole, _⟩ := r.output_place run.reaches
  exact whole ▸ List.concat_ne_nil _ above

theorem cleared_here : (r.cleared fs).here = fs.here :=
  (r.cleared_absent run.regular (fun _ => run.forced) run.removed).1

theorem start_later (path : Path) : later.start path = fs.start path := by
  simp only [FileSystem.start, run.wrote.keeps.here, run.grown.here, run.cleared_here]

/-- Paths that go down only are followed by a second run as by the first. -/
theorem steady_of_down (separate : Separate fs source place) (reads : fs.Reaches r.source source)
    (there : fs.kind? source ≠ none) (down_source : Path.dots ∉ Path.names r.source)
    (down : Path.dots ∉ Path.names r.destination) : r.Steady fs later source place where
  found absent := by
    have same : r.cleared fs = fs := by simp [cleared, absent]
    obtain ⟨other, made, missing⟩ := makeDirs_new (.inl r.output_bare) r.output_given
      run.regular.plain (r.settled_output (settled_of_down fs _ _ down)) absent (same ▸ run.made)
    exact run.reaches.unique made.reaches ▸ missing
  clear front q part leads inner missing := by
    exfalso
    obtain ⟨above, whole, _, way⟩ := r.output_place run.reaches_later
    have way := go_without_dots way
    rw [← Path.names_eq, run.start_later] at way
    have on_way := prefix_of_front down part way leads
    have outside := separate.outside
    rw [whole, List.dropLast_concat] at outside
    rcases outside with rfl | outside
    · exact there (on_way.eq_of_length_le inner.length_le ▸ missing)
    · exact outside (inner.trans on_way)
  through front q part leads below := by
    have down_steps : Path.dots ∉ Path.steps r.source := by
      intro member
      refine down_source ?_
      rw [← Path.steps_without_dots]
      exact List.mem_filter.mpr ⟨member, by decide⟩
    have on_way := prefix_of_front down_steps part reads.arrives leads
    exact absurd (below.trans on_way) separate.beside

variable (steady : r.Steady fs later source place)

include steady

/-- The new output is made where none was, or where the old one was removed. -/
theorem before : (r.cleared fs = fs ∧ fs.kind? place = none) ∨
    (r.cleared fs = fs.remove place ∧ fs.kind? place = some .dir) := by
  cases old : fs.has r.output with
  | true =>
    right
    have gone := run.removed (by rw [run.forced, old]; rfl)
    obtain ⟨other, reaches_old, dir, same⟩ := removeAll_ok run.regular.plain gone
    have start : mid.start r.output = fs.start r.output := by
      simp only [FileSystem.start, run.grown.here]
      rw [same]
      rfl
    have arrives := run.reaches.arrives
    rw [start] at arrives
    obtain rfl := go_lexical reaches_old.arrives arrives
    exact ⟨same, dir⟩
  | false => exact .inl ⟨by simp [cleared, old], steady.found old⟩

theorem cleared_kinds (q : Place) :
    (r.cleared fs).kind? q = if place <+: q then none else fs.kind? q := by
  rcases run.before steady with ⟨same, missing⟩ | ⟨same, dir⟩
  · rw [same]
    split
    · rename_i below
      obtain ⟨more, rfl⟩ := below
      cases more with
      | nil => rw [List.append_nil, missing]
      | cons first more => exact kind?_below fs place _ (by simp) (by simp [missing])
    · rfl
  · rw [same, kinds_remove run.regular dir]
    simp only [ne_eq, run.given, not_false_eq_true, true_and]

theorem dir_kept {q : Place} (apart : ¬ place <+: q) (dir : fs.kind? q = some .dir) :
    later.kind? q = some .dir := by
  have before : (r.cleared fs).kind? q = some .dir := by
    rw [run.cleared_kinds steady, if_neg apart, dir]
  exact run.wrote.keeps.dirs q (run.grown.adds.keeps.dirs q before)

/-- What is new when the output was made is on the way to it, or in it. -/
theorem new_touched (q : Place) (missing : (r.cleared fs).kind? q = none)
    (new : mid.kind? q = some .dir) : Touched fs source place q := by
  by_cases below : place <+: q
  · exact .inl below
  · have before : fs.kind? q = none := by
      rwa [run.cleared_kinds steady, if_neg below] at missing
    refine .inr ⟨before, fun inner => ?_⟩
    rcases run.grown.kinds q with old | ⟨_, _, leads | ⟨front, part, leads⟩⟩
    · rw [old, missing] at new
      cases new
    · exact below (run.reaches.unique leads ▸ List.prefix_refl place)
    · rw [output, Path.names_join _ _ outputName_proper.nonempty outputName_proper.slash
        outputName_proper.dot, List.dropLast_concat] at part
      have start : (r.cleared fs).start r.output = fs.start r.destination := by
        rw [output, start_join _ outputName_proper.slash]
        simp only [FileSystem.start, run.cleared_here]
      have leads_later := go_mono run.wrote.keeps.dirs leads
      rw [start] at leads_later
      exact below (steady.clear front q part leads_later inner before)

theorem edits : Edits (Touched fs source place) (r.cleared fs) later := by
  have new : Edits (Touched fs source place) (r.cleared fs) mid := by
    have ran := run.made
    rw [makeDirs, if_neg r.output_given] at ran
    exact (makeDirsUpTo_edits _ (.inl r.output_bare) (r.cleared_plain run.regular run.removed)
      ran).mono fun q new => run.new_touched steady q new.1 new.2
  exact new.trans ((Tree.write_edits r.output place tree mid later run.proper run.plain run.reaches
    run.dir run.written).mono fun q below => .inl below)

theorem regular_later : later.Regular := by
  refine (run.edits steady).regular ?_
  rcases run.before steady with ⟨same, _⟩ | ⟨same, _⟩
  · rw [same]
    exact run.regular
  · rw [same]
    exact remove_regular run.regular place

theorem reads_later (reads : fs.Reaches r.source source) : later.Reaches r.source source := by
  refine ⟨reads.nul, reads.given, reads.fits, ?_⟩
  rw [run.start_later]
  refine go_kept reads.arrives fun front q part leads dir => ?_
  by_cases below : place <+: q
  · exact steady.through front q part leads below
  · exact run.dir_kept steady below dir

/-- Only reports are left in the output. -/
theorem barren_later (node : Node) (at_place : later.node? place = some node) : node.Barren := by
  intro front name bytes file
  have file_later : later.kind? (place ++ front ++ [name]) = some (.file bytes) := by
    rw [List.append_assoc, kind?, node?, Node.at?_append, ← node?, at_place]
    simp [file, Node.kind]
  refine run.wrote.reports front name (fun bytes before => ?_) file_later
  rcases run.grown.adds.kinds (place ++ front ++ [name]) with old | ⟨_, new⟩
  · have inside := (List.prefix_append place front).trans (List.prefix_append _ [name])
    rw [old, run.cleared_kinds steady, if_pos inside] at before
    cases before
  · rw [new] at before
    cases before

/-- The old output is gone and the new one is made before the tree is written a second time, as it
was the first time. -/
theorem made_again (again : r.cleared later = later.remove place) :
    ∃ last, Runs (makeDirs r.output) (r.cleared later) () last ∧ SameContent mid last := by
  have kinds (q : Place) :
      (r.cleared later).kind? q = if place <+: q then none else mid.kind? q := by
    rw [again, kinds_remove (run.regular_later steady) run.dir_later]
    simp only [ne_eq, run.given, not_false_eq_true, true_and]
    split
    · rfl
    · rename_i apart
      refine run.wrote.outside q fun dirs name below => apart ?_
      rw [below, List.append_assoc]
      exact List.prefix_append place _
  have here : (r.cleared later).here = mid.here := by
    rw [again]
    exact run.wrote.keeps.here
  refine makeDirs_between (.inl r.output_bare) (r.cleared_plain run.regular run.removed) run.made
    ⟨here.trans run.grown.here, fun q => ?_⟩ ⟨here.symm, fun q => ?_⟩
  · rw [kinds]
    split
    · rename_i below
      exact .inl (by rw [run.cleared_kinds steady, if_pos below])
    · exact run.grown.adds.kinds q
  · rw [kinds]
    split
    · rename_i below
      rcases run.grown.adds.kinds q with old | ⟨_, new⟩
      · exact .inl (by rw [old, run.cleared_kinds steady, if_pos below])
      · exact .inr ⟨rfl, new⟩
    · exact .inl rfl

theorem replaced_again :
    ∃ last, Runs (r.replaceOutput tree) later () last ∧ SameContent later last := by
  have plain_later := (run.regular_later steady).plain
  have gone := removeAll_of_dir plain_later run.reaches_later run.dir_later
  have old : (r.force && later.has r.output) = true := by
    rw [run.forced, (has_iff plain_later _).mpr ⟨place, run.reaches_later, by simp [run.dir_later]⟩]
    rfl
  have same : r.cleared later = later.remove place := by
    rw [cleared, if_pos old, gone]
    rfl
  obtain ⟨again, made, same_mid⟩ := run.made_again steady same
  obtain ⟨last, written, same_later⟩ :=
    (Tree.write_blind r.output tree).runs run.plain same_mid run.written
  exact ⟨last, r.runs_replaceOutput_of (fun _ => same ▸ gone) made written, same_later⟩

variable (there : fs.kind? source ≠ none)

include there

/-- What is not in the output, nor has it below, is listed as before. -/
theorem node_kept (beside : ¬ place <+: source) (apart : ¬ source <+: place) :
    later.node? source = fs.node? source := by
  have before : (r.cleared fs).node? source = fs.node? source := by
    rcases run.before steady with ⟨same, _⟩ | ⟨same, _⟩
    · rw [same]
    · rw [same]
      exact Node.at?_alterAt_apart _ place source fs.entries apart beside
  rw [← before]
  refine (run.edits steady).node?_eq (by rwa [kind?, before]) fun q touched inner => ?_
  rcases touched with below | ⟨_, outside⟩
  · exact (List.prefix_or_prefix_of_prefix inner below).elim apart beside
  · exact outside inner

/-- What the output lies in is listed as before, but for the output. -/
theorem besides_kept {name : Name} (within : place = source ++ [name]) :
    (later.node? source).map (Node.besides name) = (fs.node? source).map (Node.besides name) := by
  have beside : ¬ place <+: source := by
    intro below
    have length := below.length_le
    simp only [within, List.length_append, List.length_singleton] at length
    omega
  have there_cleared : (r.cleared fs).kind? source ≠ none := by
    rwa [run.cleared_kinds steady, if_neg beside]
  have before : ((r.cleared fs).node? source).map (Node.besides name) =
      (fs.node? source).map (Node.besides name) := by
    rcases run.before steady with ⟨same, _⟩ | ⟨same, _⟩
    · rw [same]
    · rw [same, within]
      exact Node.besides_alterAt _ source name [] fs.entries
  rw [← before]
  refine (run.edits steady).besides_eq there_cleared fun q touched => ?_
  rcases touched with below | ⟨_, outside⟩
  · exact .inl (within ▸ below)
  · exact .inr outside

theorem there_later (beside : ¬ place <+: source) : later.kind? source ≠ none := by
  by_cases inner : source <+: place
  · obtain ⟨more, rfl⟩ := inner
    cases more with
    | nil => exact absurd (by simp) beside
    | cons first more =>
      rw [kind?_above later source (first :: more) (by simp) (by simp [run.dir_later])]
      simp
  · rwa [kind?, run.node_kept steady there beside inner]

/-- The same tree is read again: of the output, if it is in the source, nothing is read. -/
theorem tree_later (separate : Separate fs source place) (reads : fs.Reaches r.source source) :
    r.tree? later = r.tree? fs := by
  have reads_later := run.reads_later steady reads
  have regular_later := run.regular_later steady
  obtain ⟨above, whole, dir, _⟩ := r.output_place run.reaches_later
  rcases separate.outside with within | outside
  · obtain rfl : above = source := by rw [← within, whole, List.dropLast_concat]
    have unread : Unread outputName := ⟨by decide, by decide⟩
    exact r.tree_of_besides unread run.regular regular_later reads reads_later dir
      (whole ▸ separate.barren) (whole ▸ run.barren_later steady)
      (run.besides_kept steady there whole)
  · have apart : ¬ source <+: place := by
      intro inner
      rw [whole] at inner
      rcases List.prefix_concat_iff.mp inner with same | inner
      · exact separate.beside (whole ▸ same ▸ List.prefix_refl source)
      · rw [whole, List.dropLast_concat] at outside
        exact outside inner
    exact r.tree_of_node run.regular regular_later reads reads_later there
      (run.node_kept steady there separate.beside apart)

end Replaced

theorem written_of_run {output : Path} {leaves : Nat}
    (ran : (r.convert false).run fs = (.ok (.written output leaves), later)) :
    r.check fs = .ok () ∧ output = r.output ∧ ∃ tree, r.tree? fs = .ok (some tree) ∧
      leaves = tree.leaves.length ∧ Runs (r.replaceOutput tree) fs () later := by
  rw [run_convert] at ran
  split at ran
  · cases ran
  · cases ran
  · cases ran
  · rename_i tree checked read
    simp only [Bool.false_eq_true, if_false] at ran
    split at ran
    · rename_i replaced
      cases ran
      exact ⟨checked, rfl, tree, read, rfl, replaced⟩
    · cases ran

theorem there_of_check (plain : Plain fs) (checked : r.check fs = .ok ()) {source : Place}
    (reads : fs.Reaches r.source source) : fs.kind? source ≠ none := by
  unfold check at checked
  split at checked
  · cases checked
  · rename_i given
    obtain ⟨place, leads, there⟩ := (has_iff plain r.source).mp (by simpa using given)
    exact reads.unique leads ▸ there

/-- With force only a destination that is no directory, or a missing source, is refused. -/
theorem check_forced (plain : Plain fs) (forced : r.force = true) {source above : Place}
    (reads : fs.Reaches r.source source) (there : fs.kind? source ≠ none)
    (way : go fs.kind? (fs.start r.destination) (Path.parts r.destination) = .ok above)
    (dir : fs.kind? above = some .dir) : r.check fs = .ok () := by
  have has_source := (has_iff plain r.source).mpr ⟨source, reads, there⟩
  have destination : fs.has r.destination = true → fs.isDir r.destination = true := by
    intro given
    obtain ⟨place, leads, _⟩ := (has_iff plain _).mp given
    have arrives := (go_steps_iff r.destination dir).mpr way
    obtain rfl := Except.ok.inj (leads.arrives.symm.trans arrives)
    exact (isDir_iff plain _).mpr ⟨place, leads, dir⟩
  simp only [check, has_source, forced, Bool.not_true, Bool.false_eq_true, if_false, Bool.and_false]
  split
  · rename_i refused
    simp only [Bool.and_eq_true, Bool.not_eq_true'] at refused
    rw [destination refused.1] at refused
    cases refused.2
  · rfl

/-- What a run that writes has gone through. -/
theorem replaced_of_run (regular : fs.Regular) (forced : r.force = true) {output : Path}
    {leaves : Nat} (ran : (r.convert false).run fs = (.ok (.written output leaves), later))
    {place : Place} (writes : later.Reaches output place) :
    r.check fs = .ok () ∧ output = r.output ∧ ∃ mid tree, r.tree? fs = .ok (some tree) ∧
      leaves = tree.leaves.length ∧ r.Replaced fs mid later place tree := by
  obtain ⟨checked, rfl, tree, read, rfl, replaced⟩ := r.written_of_run ran
  obtain ⟨mid, removed, made, written⟩ := r.runs_replaceOutput replaced
  obtain ⟨plain, other, reaches, _⟩ := r.output_dir regular removed made
  have proper := r.proper_of_written regular read plain written
  have wrote := Tree.write_wrote r.output other tree mid later proper plain reaches written
  obtain rfl := writes.unique (wrote.keeps.reaches reaches)
  exact ⟨checked, rfl, mid, tree, read, rfl,
    ⟨regular, forced, removed, made, reaches, proper, written⟩⟩

/-- A conversion that has replaced its output can be run again: it then reports the same, and leaves
everything as it is, as long as the source is not in the output and the output not deeper in the
source than directly in it. The second run has to find the output where the first has made it, the
source where it was, and in the source nothing that the first has made beside the output. -/
theorem convert_again (fs later : FileSystem) (output : Path) (leaves : Nat) (source place : Place)
    (regular : fs.Regular) (forced : r.force = true)
    (ran : (r.convert false).run fs = (.ok (.written output leaves), later))
    (reads : fs.Reaches r.source source) (writes : later.Reaches output place)
    (separate : Separate fs source place) (steady : r.Steady fs later source place) :
    ∃ last, (r.convert false).run later = (.ok (.written output leaves), last) ∧
      SameContent later last := by
  obtain ⟨checked, rfl, mid, tree, read, rfl, run⟩ := r.replaced_of_run regular forced ran writes
  have there := r.there_of_check regular.plain checked reads
  have there_later := run.there_later steady there separate.beside
  obtain ⟨above, _, dir, way⟩ := r.output_place writes
  have checked_later := r.check_forced (run.regular_later steady).plain forced
    (run.reads_later steady reads) there_later way dir
  have read_later : r.tree? later = .ok (some tree) :=
    (run.tree_later steady there separate reads).trans read
  obtain ⟨last, replaced, same⟩ := run.replaced_again steady
  refine ⟨last, ?_, same⟩
  rw [r.run_tree checked_later read_later, replaced]

/-- The source has a directory that an earlier output has left in it. -/
def inside : FileSystem where
  entries := [(Path.of "s", .dir [
    (Path.of "A.smali", .file (facadeOf "only")),
    (outputName, .dir [(Path.of "x", .dir [])])])]

theorem regular_inside : inside.Regular := by
  unfold FileSystem.Regular
  decide +kernel

theorem separate_inside : Separate inside [Path.of "s"] [Path.of "s", outputName] where
  beside := by decide
  outside := .inl rfl
  barren node there := by
    cases there
    refine Node.barren_dir (fun e member => ?_) (by decide)
    rw [List.mem_singleton.mp member]
    exact Node.barren_dir nofun nofun

/-- The conversion of `s` into itself. -/
def inward : Request := conversion (Path.of "s") "s" true

theorem convert_again_inside : ∃ later last,
    (inward.convert false).run inside = (.ok (.written inward.output 1), later) ∧
      (inward.convert false).run later = (.ok (.written inward.output 1), last) ∧
      SameContent later last := by
  have reads : inside.Reaches inward.source [Path.of "s"] := by decide +kernel
  have checked : ((inward.convert false).run inside).2.Reaches inward.output
        [Path.of "s", outputName] ∧
      written? ((inward.convert false).run inside).1 = some (inward.output, 1) := by
    decide +kernel
  rw [written?_iff] at checked
  generalize ran : (inward.convert false).run inside = ended at checked
  obtain ⟨result, later⟩ := ended
  obtain ⟨writes, rfl⟩ := checked
  obtain ⟨_, _, mid, tree, _, _, run⟩ := inward.replaced_of_run regular_inside rfl ran writes
  have steady := run.steady_of_down separate_inside reads (by decide +kernel) (by decide)
    (by decide)
  obtain ⟨last, again, same⟩ := inward.convert_again inside later _ 1 _ _ regular_inside rfl ran
    reads writes separate_inside steady
  exact ⟨later, last, rfl, again, same⟩

/-- The conversion meets what is asked of it and writes, and a second one does not do the same. -/
def Wavers (r : Request) (fs : FileSystem) (source place : Place) : Prop :=
  fs.Regular ∧ r.force = true ∧ fs.Reaches r.source source ∧ Separate fs source place ∧
    ∃ leaves later, (r.convert false).run fs = (.ok (.written r.output leaves), later) ∧
      later.Reaches r.output place ∧
      ¬ ∃ last, (r.convert false).run later = (.ok (.written r.output leaves), last) ∧
        SameContent later last

theorem wavers_of_check {r : Request} {fs : FileSystem} {source place : Place}
    (regular : fs.Regular) (forced : r.force = true) (reads : fs.Reaches r.source source)
    (separate : Separate fs source place) (q : Place)
    (checked : ((r.convert false).run fs).2.Reaches r.output place ∧
      written? ((r.convert false).run fs).1 = some (r.output, 1) ∧
      (written? ((r.convert false).run ((r.convert false).run fs).2).1 = none ∨
        ((r.convert false).run ((r.convert false).run fs).2).2.kind? q ≠
          ((r.convert false).run fs).2.kind? q)) : Wavers r fs source place := by
  rw [written?_iff] at checked
  generalize ran : (r.convert false).run fs = ended at checked
  obtain ⟨result, later⟩ := ended
  obtain ⟨writes, rfl, fails⟩ := checked
  refine ⟨regular, forced, reads, separate, 1, later, ran, writes, ?_⟩
  rintro ⟨last, again, same⟩
  simp only [again] at fails
  rcases fails with stops | differs
  · cases stops
  · exact differs (same.kinds q)

theorem convert_again_wavers :
    Wavers (conversion (Path.of "s") "nope/.." true) beside [Path.of "s"] [outputName] ∧
      Wavers (conversion (Path.of "s") "s/smali/../../out" true) beside [Path.of "s"]
        [Path.of "out", outputName] ∧
      Wavers (conversion (Path.of "s/KotlinClassMetadata/x/../..") "s" true) inside [Path.of "s"]
        [Path.of "s", outputName] := by
  refine ⟨?_, ?_, ?_⟩
  · -- only with `nope` made, the path of the old output leads to it
    refine wavers_of_check regular_beside rfl (by decide +kernel)
      ⟨by decide, .inr (by decide), fun node there => ?_⟩
      [outputName, Path.of "old.txt"] (by decide +kernel)
    cases there
    exact Node.barren_dir (by simpa using Node.barren_file []) (by decide)
  · -- `s/smali` is made on the way to the output, and is the only root
    exact wavers_of_check regular_beside rfl (by decide +kernel)
      ⟨by decide, .inr (by decide), nofun⟩ [] (by decide +kernel)
  · -- the source's path goes through `x`, which is removed
    exact wavers_of_check regular_inside rfl (by decide +kernel) separate_inside []
      (by decide +kernel)

end Request

end SmaliReport
