import SmaliReport.Proofs.Tree.Paths
import SmaliReport.Tree.Merge

/-! The merged tree, place by place. Adding a row of trees to merged siblings commutes with
going one name down, so the directory at a path of the result holds exactly what the input holds
at this path, with each name at its first place. -/

namespace SmaliReport.Tree

/-- The entries without the names that stand earlier in the list or among `seen`. -/
def firstNames (seen : List Text) : List (Leaf ⊕ Text) → List (Leaf ⊕ Text)
  | [] => []
  | .inl l :: rest => .inl l :: firstNames seen rest
  | .inr name :: rest =>
    if seen.contains name then firstNames seen rest
    else .inr name :: firstNames (seen ++ [name]) rest

abbrev dirNames (row : List Tree) : List Text := row.filterMap dirName?

theorem firstNames_ne_nil (entries : List (Leaf ⊕ Text)) (nonempty : entries ≠ []) :
    firstNames [] entries ≠ [] := by
  cases entries with
  | nil => exact absurd rfl nonempty
  | cons e rest => cases e <;> simp [firstNames]

theorem firstNames_leaves (seen : List Text) (row : List Tree) :
    (firstNames seen (row.map entry)).filterMap Sum.getLeft? = row.filterMap leaf? := by
  induction row generalizing seen with
  | nil => rfl
  | cons t row ih =>
    cases t with
    | leaf l => simp [entry, firstNames, leaf?, ih]
    | dir name children =>
      simp only [List.map_cons, entry, firstNames, List.contains_iff_mem, List.filterMap_cons,
        leaf?]
      by_cases known : name ∈ seen
      · rw [if_pos known, ih]
      · rw [if_neg known]
        exact ih _

theorem entry_leaves (row : List Tree) :
    (row.map entry).filterMap Sum.getLeft? = row.filterMap leaf? := by
  induction row with
  | nil => rfl
  | cons t row ih => cases t <;> simp [entry, leaf?, List.filterMap_cons, ih]

theorem dirNames_concat_leaf (row : List Tree) (l : Leaf) :
    dirNames (row ++ [.leaf l]) = dirNames row := by
  simp [dirNames, dirName?]

theorem intoDir_of_not_mem (name : Text) (change : List Tree → List Tree) (row : List Tree)
    (absent : name ∉ dirNames row) : intoDir name change row = row ++ [.dir name (change [])] := by
  induction row with
  | nil => rfl
  | cons t row ih =>
    cases t with
    | leaf l => rw [intoDir, ih absent, List.cons_append]
    | dir other children =>
      simp only [dirNames, List.filterMap_cons, dirName?, List.mem_cons, not_or] at absent
      rw [intoDir, if_neg (Ne.symm absent.1), ih absent.2, List.cons_append]

theorem map_entry_intoDir_of_mem (name : Text) (change : List Tree → List Tree) (row : List Tree)
    (known : name ∈ dirNames row) : (intoDir name change row).map entry = row.map entry := by
  induction row with
  | nil => cases known
  | cons t row ih =>
    cases t with
    | leaf l => rw [intoDir, List.map_cons, List.map_cons, ih known]
    | dir other children =>
      by_cases same : other = name
      · rw [intoDir, if_pos same]
        rfl
      · rw [intoDir, if_neg same, List.map_cons, List.map_cons, ih]
        exact (List.mem_cons.mp known).resolve_left (Ne.symm same)

theorem dirNames_eq (row : List Tree) : dirNames row = (row.map entry).filterMap Sum.getRight? := by
  induction row with
  | nil => rfl
  | cons t row ih => cases t <;> simp_all [dirNames, entry, dirName?, List.filterMap_cons]

theorem dirNames_intoDir (name : Text) (change : List Tree → List Tree) (row : List Tree) :
    dirNames (intoDir name change row) =
      if name ∈ dirNames row then dirNames row else dirNames row ++ [name] := by
  by_cases known : name ∈ dirNames row
  · rw [if_pos known, dirNames_eq, map_entry_intoDir_of_mem name change row known, ← dirNames_eq]
  · rw [if_neg known, intoDir_of_not_mem name change row known, dirNames, List.filterMap_append]
    rfl

theorem nodup_intoDir (name : Text) (change : List Tree → List Tree) (row : List Tree)
    (unique : (dirNames row).Nodup) : (dirNames (intoDir name change row)).Nodup := by
  rw [dirNames_intoDir]
  split
  · exact unique
  · rename_i absent
    exact List.nodup_append.mpr ⟨unique, by simp,
      fun a ha b hb => by rintro rfl; exact absent (List.mem_singleton.mp hb ▸ ha)⟩

theorem nodup_addAllTo (ts row : List Tree) (unique : (dirNames row).Nodup) :
    (dirNames (addAllTo ts row)).Nodup := by
  induction ts generalizing row with
  | nil => exact unique
  | cons t ts ih =>
    apply ih
    cases t with
    | leaf l => exact (dirNames_concat_leaf row l).symm ▸ unique
    | dir name children => exact nodup_intoDir name (addAllTo children) row unique

theorem map_entry_addAllTo (ts row : List Tree) :
    (addAllTo ts row).map entry = row.map entry ++ firstNames (dirNames row) (ts.map entry) := by
  induction ts generalizing row with
  | nil => simp [addAllTo, firstNames]
  | cons t ts ih =>
    rw [addAllTo, ih]
    cases t with
    | leaf l =>
      rw [addTo, dirNames_concat_leaf]
      simp [entry, firstNames]
    | dir name children =>
      simp only [addTo, dirNames_intoDir, List.map_cons, entry, firstNames, List.contains_iff_mem]
      by_cases known : name ∈ dirNames row
      · rw [if_pos known, if_pos known, map_entry_intoDir_of_mem name _ row known]
      · rw [if_neg known, if_neg known, intoDir_of_not_mem name _ row known]
        simp [entry]

theorem inside_intoDir (name other : Text) (change : List Tree → List Tree) (row : List Tree)
    (unique : (dirNames row).Nodup) :
    inside name (intoDir other change row) =
      if other = name then change (inside name row) else inside name row := by
  induction row with
  | nil => simp [intoDir]
  | cons t row ih =>
    cases t with
    | leaf l => rw [intoDir, inside_leaf, inside_leaf, ih unique]
    | dir first children =>
      simp only [dirNames, List.filterMap_cons, dirName?, List.nodup_cons] at unique
      by_cases same : first = other
      · subst same
        rw [intoDir, if_pos rfl, inside_dir, inside_dir]
        by_cases here : first = name
        · subst here
          simp [inside_of_not_mem first row unique.1]
        · simp [here]
      · rw [intoDir, if_neg same, inside_dir, inside_dir, ih unique.2]
        by_cases here : other = name
        · subst here
          simp [same]
        · simp [here]

theorem addAllTo_append (ts more row : List Tree) :
    addAllTo (ts ++ more) row = addAllTo more (addAllTo ts row) := by
  induction ts generalizing row with
  | nil => rfl
  | cons t ts ih => exact ih (addTo t row)

theorem inside_addAllTo (name : Text) (ts row : List Tree) (unique : (dirNames row).Nodup) :
    inside name (addAllTo ts row) = addAllTo (inside name ts) (inside name row) := by
  induction ts generalizing row with
  | nil => rfl
  | cons t ts ih =>
    cases t with
    | leaf l =>
      have unique_leaf := (dirNames_concat_leaf row l).symm ▸ unique
      rw [addAllTo, addTo, ih _ unique_leaf, inside_append, inside_leaf, inside_leaf]
      simp
    | dir other children =>
      rw [addAllTo, addTo, ih _ (nodup_intoDir other _ row unique),
        inside_intoDir name other _ row unique, inside_dir, addAllTo_append]
      by_cases here : other = name
      · rw [if_pos here, if_pos here]
      · rw [if_neg here, if_neg here, addAllTo]

/-- Merging first and going down then is going down first and merging then. -/
theorem rowAt_addAllTo (path : List Text) (ts : List Tree) :
    rowAt path (addAllTo ts []) = addAllTo (rowAt path ts) [] := by
  induction path generalizing ts with
  | nil => rfl
  | cons first rest ih =>
    rw [rowAt, inside_addAllTo first ts [] List.nodup_nil, inside_nil, ih]
    rfl

theorem leaves_addAllTo (ts : List Tree) :
    (addAllTo ts []).filterMap leaf? = ts.filterMap leaf? := by
  rw [← entry_leaves, map_entry_addAllTo, List.map_nil, List.nil_append]
  exact firstNames_leaves _ ts

theorem proper_intoDir (name : Text) (change : List Tree → List Tree) (row : List Tree)
    (named : Node.PlainName (Path.ofText name)) (proper : ∀ t ∈ row, Proper t)
    (kept : ∀ row, (∀ t ∈ row, Proper t) → ∀ t ∈ change row, Proper t) :
    ∀ t ∈ intoDir name change row, Proper t := by
  induction row with
  | nil => exact List.forall_mem_singleton.mpr (.dir named (kept [] (List.forall_mem_nil _)))
  | cons t row ih =>
    rw [List.forall_mem_cons] at proper
    cases t with
    | leaf l => exact List.forall_mem_cons.mpr ⟨proper.1, ih proper.2⟩
    | dir other children =>
      rw [intoDir]
      split
      · cases proper.1 with
        | dir other_named each =>
          exact List.forall_mem_cons.mpr ⟨.dir other_named (kept children each), proper.2⟩
      · exact List.forall_mem_cons.mpr ⟨proper.1, ih proper.2⟩

mutual

theorem proper_addTo : ∀ (t : Tree) (row : List Tree), Proper t → (∀ u ∈ row, Proper u) →
    ∀ u ∈ addTo t row, Proper u
  | .leaf l, row, proper, each => by
    intro u member
    rcases List.mem_append.mp member with there | new
    · exact each u there
    · exact List.mem_singleton.mp new ▸ proper
  | .dir name children, row, .dir named inner, each =>
    proper_intoDir name (addAllTo children) row named each fun row each =>
      proper_addAllTo children row inner each

theorem proper_addAllTo : ∀ (ts row : List Tree), (∀ t ∈ ts, Proper t) → (∀ u ∈ row, Proper u) →
    ∀ u ∈ addAllTo ts row, Proper u
  | [], row, _, each => each
  | t :: ts, row, proper, each => by
    rw [List.forall_mem_cons] at proper
    exact proper_addAllTo ts (addTo t row) proper.2 (proper_addTo t row proper.1 each)

end

/-- Where names are unique, a name leads to at most one directory. -/
theorem reachedIn_of_nodup (row : List Tree) (first : Text) (rest : List Text)
    (unique : (dirNames row).Nodup) :
    reachedIn row (first :: rest) =
      if first ∈ dirNames row then reached rest (.dir first (inside first row)) else [] := by
  induction row with
  | nil => rfl
  | cons t row ih =>
    cases t with
    | leaf l => rw [reachedIn_leaf, ih unique, inside_leaf]; rfl
    | dir name children =>
      simp only [dirNames, List.filterMap_cons, dirName?, List.nodup_cons] at unique ⊢
      rw [reachedIn_dir, ih unique.2, inside_dir]
      by_cases same : name = first
      · subst same
        rw [if_pos rfl, if_pos rfl, if_neg unique.1, inside_of_not_mem name row unique.1]
        simp
      · simp [same, Ne.symm same]

theorem mem_dirNames_iff (first : Text) (row : List Tree) :
    first ∈ dirNames row ↔ reachedIn row [first] ≠ [] := by
  induction row with
  | nil => simp [reachedIn]
  | cons t row ih =>
    cases t with
    | leaf l => rw [reachedIn_leaf, ← ih]; rfl
    | dir name children =>
      rw [reachedIn_dir]
      by_cases same : name = first
      · simp [dirNames, dirName?, same]
      · simpa [dirNames, dirName?, same, Ne.symm same] using ih

theorem mem_dirNames_addAllTo (first : Text) (ts : List Tree) :
    first ∈ dirNames (addAllTo ts []) ↔ first ∈ dirNames ts := by
  have general : ∀ row, first ∈ dirNames (addAllTo ts row) ↔
      first ∈ dirNames row ∨ first ∈ dirNames ts := by
    induction ts with
    | nil => intro row; simp [addAllTo]
    | cons t ts ih =>
      intro row
      rw [addAllTo, ih]
      cases t with
      | leaf l => simp [addTo, dirNames, dirName?]
      | dir name children =>
        rw [addTo, dirNames_intoDir]
        by_cases known : name ∈ dirNames row
        · rw [if_pos known]
          simp only [dirNames, List.filterMap_cons, dirName?, List.mem_cons]
          constructor
          · rintro (h | h)
            · exact .inl h
            · exact .inr (.inr h)
          · rintro (h | rfl | h)
            · exact .inl h
            · exact .inl known
            · exact .inr h
        · rw [if_neg known]
          simp [dirNames, dirName?, or_assoc]
  simpa using general []

theorem reachedIn_of_not_mem (row : List Tree) (first : Text) (rest : List Text)
    (absent : first ∉ dirNames row) : reachedIn row (first :: rest) = [] := by
  cases rest with
  | nil => exact Decidable.byContradiction fun h => absent ((mem_dirNames_iff first row).mpr h)
  | cons second rest =>
    rw [reachedIn_cons, inside_of_not_mem first row absent]
    rfl

/-- A path that leads anywhere in the input leads to one merged directory. -/
theorem reached_merged (path : List Text) (name : Text) (ts : List Tree)
    (there : path = [] ∨ reachedIn ts path ≠ []) :
    reached path (.dir name (addAllTo ts [])) =
      [.dir (path.getLastD name) (addAllTo (rowAt path ts) [])] := by
  induction path generalizing name ts with
  | nil => rfl
  | cons first rest ih =>
    have unique := nodup_addAllTo ts [] (by simp)
    have known : first ∈ dirNames ts := by
      apply Decidable.byContradiction
      intro absent
      exact there.elim nofun (fun h => h (reachedIn_of_not_mem ts first rest absent))
    rw [reached_cons, children, reachedIn_of_nodup _ first rest unique,
      if_pos ((mem_dirNames_addAllTo first ts).mpr known), inside_addAllTo first ts [] (by simp),
      inside_nil, ih, rowAt, List.getLastD_cons]
    cases rest with
    | nil => exact .inl rfl
    | cons second rest => exact .inr (by simpa [reachedIn_cons] using there)

theorem reached_merged_eq_nil (path : List Text) (name : Text) (ts : List Tree)
    (nonempty : path ≠ []) (nowhere : reachedIn ts path = []) :
    reached path (.dir name (addAllTo ts [])) = [] := by
  induction path generalizing name ts with
  | nil => exact absurd rfl nonempty
  | cons first rest ih =>
    have unique := nodup_addAllTo ts [] (by simp)
    rw [reached_cons, children, reachedIn_of_nodup _ first rest unique,
      inside_addAllTo first ts [] (by simp), inside_nil]
    split
    · rename_i known
      rw [mem_dirNames_addAllTo, mem_dirNames_iff] at known
      cases rest with
      | nil => exact absurd nowhere known
      | cons second rest =>
        exact ih _ _ (List.cons_ne_nil second rest) (by rw [← reachedIn_cons, nowhere])
    · rfl

theorem filled_of_mem_reached (path : List Text) (t d : Tree) (filled : Filled t)
    (member : d ∈ reached path t) : Filled d := by
  induction path generalizing t with
  | nil =>
    cases t with
    | leaf l => simp at member
    | dir name row => exact List.mem_singleton.mp member ▸ filled
  | cons first rest ih =>
    cases filled with
    | leaf l => simp at member
    | dir name _ all =>
      obtain ⟨t, ht, hd⟩ := List.mem_flatMap.mp member
      split at hd
      · exact ih t (all t ht) hd
      · cases hd

theorem isDir_of_mem_reached (path : List Text) (t d : Tree) (member : d ∈ reached path t) :
    d.isDir = true := by
  induction path generalizing t with
  | nil =>
    cases t with
    | leaf l => simp at member
    | dir name row => rw [List.mem_singleton.mp member]; rfl
  | cons first rest ih =>
    cases t with
    | leaf l => simp at member
    | dir name row =>
      obtain ⟨t, _, hd⟩ := List.mem_flatMap.mp member
      split at hd
      · exact ih t hd
      · cases hd

theorem children_ne_nil (d : Tree) (filled : Filled d) (dir : d.isDir = true) :
    d.children ≠ [] := by
  cases filled with
  | leaf l => cases dir
  | dir name nonempty all => exact nonempty

theorem flatMap_children_ne_nil (ts : List Tree) (filled : ∀ t ∈ ts, Filled t)
    (d : Tree) (member : d ∈ ts) (dir : d.isDir = true) : ts.flatMap children ≠ [] := by
  intro empty
  exact children_ne_nil d (filled d member) dir (List.flatMap_eq_nil_iff.mp empty d member)

theorem mergeRoots_eq (roots : List Tree) :
    mergeRoots? roots =
      if (roots.flatMap children).isEmpty then none
      else some (.dir rootName (addAllTo (roots.flatMap children) [])) := by
  unfold mergeRoots? collapse? dir?
  split <;> rfl

theorem addAllTo_ne_nil (ts : List Tree) (nonempty : ts ≠ []) : addAllTo ts [] ≠ [] := by
  intro nothing
  have entries := map_entry_addAllTo ts []
  rw [nothing, List.map_nil, List.nil_append] at entries
  exact firstNames_ne_nil (ts.map entry) (by simpa using nonempty) entries.symm

theorem mergeRoots_eq_dir? (roots : List Tree) :
    mergeRoots? roots = dir? rootName (addAllTo (roots.flatMap children) []) := by
  rw [mergeRoots_eq, dir?]
  cases row : roots.flatMap children with
  | nil => rfl
  | cons t ts =>
    have nonempty := addAllTo_ne_nil (t :: ts) (by simp)
    rw [if_neg (by simp), if_neg (by simpa using nonempty)]

theorem mergeRoots_eq_none_iff (roots : List Tree) (filled : ∀ t ∈ roots, Filled t) :
    mergeRoots? roots = none ↔ ∀ t ∈ roots, t.isDir = false := by
  rw [mergeRoots_eq]
  constructor
  · intro nothing t ht
    cases t with
    | leaf l => rfl
    | dir name row =>
      have nonempty := flatMap_children_ne_nil roots filled _ ht rfl
      simp [nonempty] at nothing
  · intro leaves
    have empty : roots.flatMap children = [] := by
      apply List.flatMap_eq_nil_iff.mpr
      intro t ht
      cases t with
      | leaf l => rfl
      | dir name row => cases leaves _ ht
    rw [empty]
    rfl

/-- The merged tree at every path: one directory where the input has any, with the children of all
of them in turn, each directory name at its first place. Leaves are all there in their order. -/
theorem mergeRoots_exact (roots : List Tree) (filled : ∀ t ∈ roots, Filled t) :
    (mergeRoots? roots = none ↔ ∀ t ∈ roots, t.isDir = false) ∧
    ∀ merged, mergeRoots? roots = some merged →
      merged.isDir = true ∧ merged.name = rootName ∧
      ∀ path,
        (reached path merged).length = (if (roots.flatMap (reached path)).isEmpty then 0 else 1) ∧
        ∀ d ∈ reached path merged,
          d.children.map entry =
            firstNames [] (((roots.flatMap (reached path)).flatMap children).map entry) ∧
          (dirNames d.children).Nodup ∧ d.children ≠ [] ∧
          d.children.filterMap leaf? =
            ((roots.flatMap (reached path)).flatMap children).filterMap leaf? := by
  refine ⟨mergeRoots_eq_none_iff roots filled, ?_⟩
  intro merged made
  have nonempty : roots.flatMap children ≠ [] := by
    intro empty
    simp [mergeRoots_eq, empty] at made
  rw [mergeRoots_eq, if_neg (by simpa using nonempty)] at made
  cases made
  refine ⟨rfl, rfl, ?_⟩
  intro path
  rw [flatMap_rowAt]
  by_cases nowhere : roots.flatMap (reached path) = []
  · have proper : path ≠ [] := by
      rintro rfl
      exact nonempty (by simpa [nowhere, rowAt] using (flatMap_rowAt [] roots).symm)
    have lost : reachedIn (roots.flatMap children) path = [] := by
      obtain ⟨first, rest, rfl⟩ := List.exists_cons_of_ne_nil proper
      rw [← flatMap_reached_cons, nowhere]
    rw [reached_merged_eq_nil path _ _ proper lost, nowhere]
    exact ⟨rfl, List.forall_mem_nil _⟩
  · have there : path = [] ∨ reachedIn (roots.flatMap children) path ≠ [] := by
      cases path with
      | nil => exact .inl rfl
      | cons first rest => exact .inr (by rwa [← flatMap_reached_cons])
    rw [reached_merged path _ _ there]
    refine ⟨by simp [nowhere], ?_⟩
    intro d hd
    rw [List.mem_singleton.mp hd, children]
    have seen := map_entry_addAllTo (rowAt path (roots.flatMap children)) []
    refine ⟨seen, nodup_addAllTo _ [] (by simp), ?_, ?_⟩
    · obtain ⟨d, member⟩ := List.exists_mem_of_ne_nil _ nowhere
      obtain ⟨t, ht, hd⟩ := List.mem_flatMap.mp member
      have row := flatMap_children_ne_nil (roots.flatMap (reached path))
        (fun d hd => by
          obtain ⟨t, ht, hd⟩ := List.mem_flatMap.mp hd
          exact filled_of_mem_reached path t d (filled t ht) hd)
        d member (isDir_of_mem_reached path t d hd)
      rw [flatMap_rowAt] at row
      intro empty
      rw [empty] at seen
      exact firstNames_ne_nil _ (by simpa using row) seen.symm
    · rw [← entry_leaves, seen]
      exact firstNames_leaves [] _

/-- A class with the only payload text `x`. -/
def plainLeaf (name : Text) : Leaf :=
  ⟨name, { data1 := [['x']], data1_ne_nil := nofun }, .unknown⟩

/-- The roots of two dex files that share the directories `a` and `a/b`, and a file between. -/
def splitRoots : List Tree :=
  [.dir ['r'] [.dir ['a'] [.leaf (plainLeaf ['X']), .dir ['b'] [.leaf (plainLeaf ['Y'])]]],
   .leaf (plainLeaf ['F']),
   .dir ['s'] [.dir ['a'] [.dir ['b'] [.leaf (plainLeaf ['Y'])], .leaf (plainLeaf ['X'])]]]

theorem filled_splitRoots : ∀ t ∈ splitRoots, Filled t := by
  simp [splitRoots]

theorem mergeRoots_exact_split :
    (∀ t ∈ splitRoots, Filled t) ∧ ∃ merged, mergeRoots? splitRoots = some merged ∧
      ∃ d, reached [['a']] merged = [d] ∧
        d.children.map entry = [.inl (plainLeaf ['X']), .inr ['b'], .inl (plainLeaf ['X'])] := by
  refine ⟨filled_splitRoots, _, rfl, ?_⟩
  have exact := (mergeRoots_exact splitRoots filled_splitRoots).2 _ rfl
  obtain ⟨d, one⟩ := List.length_eq_one_iff.mp (exact.2.2 [['a']]).1
  exact ⟨d, one, ((exact.2.2 [['a']]).2 d (by rw [one]; exact List.mem_singleton_self d)).1⟩

end SmaliReport.Tree
