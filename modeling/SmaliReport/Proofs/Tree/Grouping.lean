import SmaliReport.Proofs.Tree.Merge

/-! Merging in groups. Adding a row of trees to siblings that are merged already, and adding the
outcome to others, is adding one after the other, so that roots may be merged in any grouping. -/

namespace SmaliReport.Tree

/-- No two directories at one place have the same name. -/
inductive Merged : List Tree → Prop where
  | intro {row : List Tree} : (dirNames row).Nodup →
      (∀ name children, .dir name children ∈ row → Merged children) → Merged row

theorem Merged.nil : Merged [] := .intro List.nodup_nil nofun

theorem Merged.unique {row : List Tree} (merged : Merged row) : (dirNames row).Nodup := by
  cases merged with
  | intro unique inner => exact unique

theorem Merged.inner {row : List Tree} (merged : Merged row) (name : Text) (children : List Tree)
    (member : .dir name children ∈ row) : Merged children := by
  cases merged with
  | intro unique inner => exact inner name children member

theorem Merged.tail {t : Tree} {row : List Tree} (merged : Merged (t :: row)) : Merged row := by
  cases merged with
  | intro unique inner =>
    refine .intro ?_ fun name children member => inner name children (List.mem_cons_of_mem t member)
    exact unique.sublist ((List.sublist_cons_self t row).filterMap dirName?)

section IntoDir

variable (name : Text) (change : List Tree → List Tree)

/-- The directory that is changed is the only one that is new. -/
theorem mem_intoDir (row : List Tree) (t : Tree) (member : t ∈ intoDir name change row) :
    t ∈ row ∨ ∃ inner, t = .dir name (change inner) ∧ (inner = [] ∨ .dir name inner ∈ row) := by
  induction row with
  | nil => exact .inr ⟨[], List.mem_singleton.mp member, .inl rfl⟩
  | cons first row ih =>
    have later (there : t ∈ intoDir name change row) : t ∈ first :: row ∨
        ∃ inner, t = .dir name (change inner) ∧ (inner = [] ∨ .dir name inner ∈ first :: row) := by
      rcases ih there with old | ⟨inner, same, origin⟩
      · exact .inl (List.mem_cons_of_mem first old)
      · exact .inr ⟨inner, same, origin.imp id (List.mem_cons_of_mem first)⟩
    cases first with
    | leaf l =>
      rcases List.mem_cons.mp member with rfl | there
      · exact .inl List.mem_cons_self
      · exact later there
    | dir other children =>
      rw [intoDir] at member
      split at member
      · rename_i same
        rcases List.mem_cons.mp member with rfl | there
        · exact .inr ⟨children, by rw [same], .inr (same ▸ List.mem_cons_self)⟩
        · exact .inl (List.mem_cons_of_mem _ there)
      · rcases List.mem_cons.mp member with rfl | there
        · exact .inl List.mem_cons_self
        · exact later there

theorem merged_intoDir (row : List Tree) (merged : Merged row)
    (kept : ∀ row, Merged row → Merged (change row)) : Merged (intoDir name change row) := by
  refine .intro (nodup_intoDir name change row merged.unique) fun other children member => ?_
  rcases mem_intoDir name change row _ member with old | ⟨inner, same, origin⟩
  · exact merged.inner other children old
  · cases same
    rcases origin with rfl | there
    · exact kept [] .nil
    · exact kept inner (merged.inner name inner there)

theorem intoDir_intoDir (again : List Tree → List Tree) (row : List Tree) :
    intoDir name again (intoDir name change row) = intoDir name (again ∘ change) row := by
  induction row with
  | nil => simp [intoDir]
  | cons t row ih =>
    cases t with
    | leaf l => simp only [intoDir, ih]
    | dir other children =>
      by_cases same : other = name
      · simp only [intoDir, if_pos same, Function.comp]
      · simp only [intoDir, if_neg same, ih]

theorem intoDir_leaf (row : List Tree) (l : Leaf) (known : name ∈ dirNames row) :
    intoDir name change (row ++ [.leaf l]) = intoDir name change row ++ [.leaf l] := by
  induction row with
  | nil => cases known
  | cons t row ih =>
    cases t with
    | leaf first => simp only [List.cons_append, intoDir, ih known]
    | dir other children =>
      by_cases same : other = name
      · simp only [List.cons_append, intoDir, if_pos same]
      · have known := (List.mem_cons.mp known).resolve_left (Ne.symm same)
        simp only [List.cons_append, intoDir, if_neg same, ih known]

/-- Changes of two directories commute where the first of them is there. -/
theorem intoDir_comm (other : Text) (beside : List Tree → List Tree) (row : List Tree)
    (differs : name ≠ other) (known : name ∈ dirNames row) :
    intoDir name change (intoDir other beside row) =
      intoDir other beside (intoDir name change row) := by
  induction row with
  | nil => cases known
  | cons t row ih =>
    cases t with
    | leaf l => simp only [intoDir, ih known]
    | dir first children =>
      by_cases here : first = name
      · have apart : first ≠ other := here ▸ differs
        simp only [intoDir, if_pos here, if_neg apart]
      · have known := (List.mem_cons.mp known).resolve_left (Ne.symm here)
        by_cases there : first = other
        · simp only [intoDir, if_pos there, if_neg here]
        · simp only [intoDir, if_neg there, if_neg here, ih known]

/-- A directory may be changed before trees are added that have no directory of its name. -/
theorem intoDir_addAllTo (ts row : List Tree) (absent : name ∉ dirNames ts)
    (known : name ∈ dirNames row) :
    intoDir name change (addAllTo ts row) = addAllTo ts (intoDir name change row) := by
  induction ts generalizing row with
  | nil => rfl
  | cons t ts ih =>
    cases t with
    | leaf l =>
      have known_leaf := (dirNames_concat_leaf row l).symm ▸ known
      rw [addAllTo, addTo, ih _ absent known_leaf, intoDir_leaf name change row l known]
      rfl
    | dir other children =>
      simp only [dirNames, List.filterMap_cons, dirName?, List.mem_cons, not_or] at absent
      have known_dir : name ∈ dirNames (intoDir other (addAllTo children) row) := by
        rw [dirNames_intoDir]
        split
        · exact known
        · exact List.mem_append_left _ known
      rw [addAllTo, addTo, ih _ absent.2 known_dir, intoDir_comm name change _ _ _ absent.1 known]
      rfl

/-- A change that commutes with adding to merged siblings does so in a directory of theirs. -/
theorem addAllTo_intoDir (mid row : List Tree) (merged : Merged mid)
    (commutes : ∀ inner row, Merged inner →
      addAllTo (change inner) row = change (addAllTo inner row)) :
    addAllTo (intoDir name change mid) row = intoDir name change (addAllTo mid row) := by
  have fresh : addAllTo (change []) = change := funext fun row => commutes [] row .nil
  induction mid generalizing row with
  | nil =>
    change intoDir name (addAllTo (change [])) row = intoDir name change row
    rw [fresh]
  | cons t mid ih =>
    cases t with
    | leaf l => exact ih (row ++ [.leaf l]) merged.tail
    | dir other children =>
      by_cases same : other = name
      · subst same
        have inner := merged.inner other children List.mem_cons_self
        have nested : addAllTo (change children) = change ∘ addAllTo children :=
          funext fun row => commutes children row inner
        have absent : other ∉ dirNames mid := (List.nodup_cons.mp merged.unique).1
        have known : other ∈ dirNames (intoDir other (addAllTo children) row) := by
          rw [dirNames_intoDir]
          split
          · assumption
          · exact List.mem_append_right _ (List.mem_singleton_self other)
        rw [intoDir, if_pos rfl]
        change addAllTo mid (intoDir other (addAllTo (change children)) row) =
          intoDir other change (addAllTo mid (intoDir other (addAllTo children) row))
        rw [intoDir_addAllTo other change mid _ absent known, intoDir_intoDir, nested]
      · rw [intoDir, if_neg same]
        exact ih (intoDir other (addAllTo children) row) merged.tail

end IntoDir

mutual

theorem merged_addTo : ∀ (t : Tree) (row : List Tree), Merged row → Merged (addTo t row)
  | .leaf l, row, merged => by
    refine .intro ?_ fun name children member => ?_
    · exact (dirNames_concat_leaf row l).symm ▸ merged.unique
    · rcases List.mem_append.mp member with there | appended
      · exact merged.inner name children there
      · cases List.mem_singleton.mp appended
  | .dir name children, row, merged =>
    merged_intoDir name (addAllTo children) row merged fun row => merged_addAllTo children row

theorem merged_addAllTo : ∀ (ts row : List Tree), Merged row → Merged (addAllTo ts row)
  | [], _, merged => merged
  | t :: ts, row, merged => merged_addAllTo ts (addTo t row) (merged_addTo t row merged)

end

mutual

theorem addAllTo_addTo : ∀ (t : Tree) (mid row : List Tree), Merged mid →
    addAllTo (addTo t mid) row = addTo t (addAllTo mid row)
  | .leaf l, mid, row, _ => addAllTo_append mid [.leaf l] row
  | .dir name children, mid, row, merged =>
    addAllTo_intoDir name (addAllTo children) mid row merged fun inner row =>
      addAllTo_addAllTo children inner row

/-- Adding what was merged is adding its parts one after another. -/
theorem addAllTo_addAllTo : ∀ (ts mid row : List Tree), Merged mid →
    addAllTo (addAllTo ts mid) row = addAllTo ts (addAllTo mid row)
  | [], _, _, _ => rfl
  | t :: ts, mid, row, merged => by
    rw [addAllTo, addAllTo_addAllTo ts (addTo t mid) row (merged_addTo t mid merged),
      addAllTo_addTo t mid row merged, addAllTo]

end

theorem addAllTo_merged (ts row : List Tree) :
    addAllTo (addAllTo ts []) row = addAllTo ts row :=
  addAllTo_addAllTo ts [] row .nil

theorem mergeNames_mergeNames (t : Tree) : mergeNames (mergeNames t) = mergeNames t := by
  cases t with
  | leaf l => rfl
  | dir name children => rw [mergeNames, mergeNames, addAllTo_merged]

/-- The children of what roots merge into. -/
theorem flatMap_mergeRoots (roots : List Tree) :
    (mergeRoots? roots).toList.flatMap children = addAllTo (roots.flatMap children) [] := by
  rw [mergeRoots_eq_dir?, dir?]
  cases addAllTo (roots.flatMap children) [] <;> simp [children]

/-- Roots may be merged before others come to them, from either side. -/
theorem mergeRoots_append_left (xs ys : List Tree) :
    mergeRoots? ((mergeRoots? xs).toList ++ ys) = mergeRoots? (xs ++ ys) := by
  rw [mergeRoots_eq_dir? (_ ++ ys), mergeRoots_eq_dir? (xs ++ ys), List.flatMap_append,
    List.flatMap_append, flatMap_mergeRoots, addAllTo_append, addAllTo_append, addAllTo_merged]

theorem mergeRoots_append_right (xs ys : List Tree) :
    mergeRoots? (xs ++ (mergeRoots? ys).toList) = mergeRoots? (xs ++ ys) := by
  rw [mergeRoots_eq_dir? (xs ++ Option.toList _), mergeRoots_eq_dir? (xs ++ ys),
    List.flatMap_append, List.flatMap_append, flatMap_mergeRoots, addAllTo_append, addAllTo_append,
    addAllTo_merged]

theorem foldl_mergeRoots (xs ys : List Tree) :
    ys.foldl (fun merged root => mergeRoots? (merged.toList ++ [root])) (mergeRoots? xs) =
      mergeRoots? (xs ++ ys) := by
  induction ys generalizing xs with
  | nil => rw [List.foldl_nil, List.append_nil]
  | cons root ys ih => rw [List.foldl_cons, mergeRoots_append_left, ih, ← List.append_cons]

/-- Roots merged in two groups, or one after another, are the roots merged at once, and what is
merged stays as it is when it is merged again. -/
theorem mergeRoots_grouped (xs ys : List Tree) :
    mergeRoots? ((mergeRoots? xs).toList ++ (mergeRoots? ys).toList) = mergeRoots? (xs ++ ys) ∧
      xs.foldl (fun merged root => mergeRoots? (merged.toList ++ [root])) none = mergeRoots? xs ∧
      (∀ merged, mergeRoots? xs = some merged → mergeRoots? [merged] = some merged) ∧
      ∀ t, mergeNames (mergeNames t) = mergeNames t := by
  refine ⟨?_, foldl_mergeRoots [] xs, fun merged made => ?_, mergeNames_mergeNames⟩
  · rw [mergeRoots_append_left, mergeRoots_append_right]
  · have again := mergeRoots_append_left xs []
    rwa [made, List.append_nil, List.append_nil, made] at again

end SmaliReport.Tree
