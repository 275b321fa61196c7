import Mathlib.Data.List.Count
import SmaliReport.Proofs.FileSystem.Content
import SmaliReport.Proofs.Tree.Collected
import SmaliReport.Proofs.Tree.Writable

/-!
Trees that differ in the order of siblings alone, as those do which are read of directories that
list the same entries in different orders. They have as many leaves as each other, and one can be written
just if the other can. What is written is the same where no two leaves are written to one place.
-/

namespace SmaliReport.Tree

open FileSystem

theorem leavesAt_report (ts : List Tree) (dirs : List Text) (name : Text) :
    leavesAt ts (dirs.map Path.ofText) (Path.ofText (name ++ ".txt".toList)) =
      leavesNamed ts dirs name := by
  simp only [leavesAt, leavesNamed, rowUnder_ofText, Leaf.file, Path.ofText_inj,
    List.append_left_inj]

/-- Reports are written under texts alone. -/
theorem leavesAt_cases (ts : List Tree) (dirs : List Name) (name : Name) :
    leavesAt ts dirs name = [] ∨
      ∃ above stem, leavesAt ts dirs name = leavesNamed ts above stem := by
  cases leaves : leavesAt ts dirs name with
  | nil => exact .inl rfl
  | cons l rest =>
    have member : l ∈ leavesAt ts dirs name := leaves ▸ List.mem_cons_self
    have named : Path.ofText l.file = name := by simpa using (List.mem_filter.mp member).2
    rcases rowUnder_cases dirs ts with ⟨above, rfl⟩ | nothing
    · refine .inr ⟨above, l.name, ?_⟩
      rw [← leaves, ← named, Leaf.file, leavesAt_report]
    · rw [leavesAt, nothing] at leaves
      cases leaves

mutual

/-- Every leaf below a tree, behind the names of the directories that it is in. -/
def placed : Tree → List (List Text × Leaf)
  | .leaf l => [([], l)]
  | .dir name children => (placedIn children).map fun found => (name :: found.1, found.2)

def placedIn : List Tree → List (List Text × Leaf)
  | [] => []
  | t :: rest => placed t ++ placedIn rest

end

mutual

theorem length_placed : ∀ t : Tree, (placed t).length = t.leaves.length
  | .leaf _ => rfl
  | .dir name children => by
    rw [placed, leaves, List.length_map, length_placedIn children]

theorem length_placedIn : ∀ ts : List Tree, (placedIn ts).length = (leavesOf ts).length
  | [] => rfl
  | t :: rest => by
    rw [placedIn, leavesOf, List.length_append, List.length_append, length_placed t,
      length_placedIn rest]

end

mutual

theorem count_placed : ∀ (t : Tree) (dirs : List Text) (l : Leaf),
    (placed t).count (dirs, l) = ((rowAt dirs [t]).filterMap leaf?).count l
  | .leaf other, dirs, l => by
    cases dirs with
    | nil =>
      by_cases same : other = l <;> simp [placed, rowAt, leaf?, same]
    | cons first rest => simp [placed, rowAt]
  | .dir name children, dirs, l => by
    rw [placed]
    cases dirs with
    | nil => simp [rowAt, List.filterMap_cons, leaf?, List.count_eq_zero]
    | cons first rest =>
      rw [rowAt, inside_dir, inside_nil, List.append_nil]
      by_cases same : name = first
      · subst same
        have injective : Function.Injective fun found : List Text × Leaf =>
            (name :: found.1, found.2) := by
          rintro ⟨dirs, l⟩ ⟨others, m⟩ equal
          simpa using equal
        rw [if_pos rfl, ← count_placedIn children rest l]
        exact List.count_map_of_injective (placedIn children) _ injective (rest, l)
      · rw [if_neg same, rowAt_nil]
        simp [List.count_eq_zero, same]

/-- A leaf stands as often among all as among those at its place. -/
theorem count_placedIn : ∀ (ts : List Tree) (dirs : List Text) (l : Leaf),
    (placedIn ts).count (dirs, l) = ((rowAt dirs ts).filterMap leaf?).count l
  | [], dirs, l => by simp [placedIn]
  | t :: rest, dirs, l => by
    have split := rowAt_append dirs [t] rest
    rw [List.singleton_append] at split
    rw [placedIn, List.count_append, count_placed t, count_placedIn rest, split,
      List.filterMap_append, List.count_append]

end

/-- Beside its leaves a name has a mark for each directory. -/
theorem marks_perm (row : List Tree) (name : Name) :
    (row.filterMap (mark name)).Perm
      ((((row.filterMap leaf?).filter (Path.ofText ·.file = name)).map fun l =>
          .file (Text.toUtf8 l.report)) ++
        List.replicate (((dirNames row).map Path.ofText).count name) .dir) := by
  induction row with
  | nil => exact .nil
  | cons t row ih =>
    cases t with
    | leaf l =>
      by_cases same : Path.ofText l.file = name
      · simpa [List.filterMap_cons, mark, leaf?, dirName?, same] using ih
      · simpa [List.filterMap_cons, mark, leaf?, dirName?, same] using ih
    | dir other children =>
      by_cases same : Path.ofText other = name
      · simp only [List.filterMap_cons, mark, leaf?, dirName?, same, if_true, List.map_cons,
          List.count_cons_self, List.replicate_succ]
        exact (ih.cons Kind.dir).trans List.perm_middle.symm
      · simpa [List.filterMap_cons, mark, leaf?, dirName?, same] using ih

/-- No two leaves in one place have the same name. -/
def Single (ts : List Tree) : Prop := ∀ dirs name, (leavesNamed ts dirs name).length ≤ 1

theorem single_leaf (l : Leaf) : Single [.leaf l] := by
  intro dirs name
  refine (List.length_filter_le _ _).trans ?_
  cases dirs with
  | nil => simp [rowAt, leaf?]
  | cons first rest => simp [rowAt]

theorem single_dir {children : List Tree} (single : Single children) (name : Text) :
    Single [.dir name children] := by
  intro dirs leaf
  cases dirs with
  | nil => simp [leavesNamed, rowAt, leaf?, List.filterMap_cons]
  | cons first rest =>
    rw [leavesNamed, rowAt, inside_dir, inside_nil, List.append_nil]
    split
    · exact single rest leaf
    · simp

theorem count_dir_marks (row : List Tree) (dirs : List Text) (name : Text) :
    (marks row (dirs.map Path.ofText) (Path.ofText name)).count .dir =
      (dirNames (rowAt dirs row)).count name := by
  have files (leaves : List Leaf) :
      (leaves.map fun l => Kind.file (Text.toUtf8 l.report)).count .dir = 0 := by
    simp [List.count_eq_zero]
  rw [marks, rowUnder_ofText, (marks_perm _ _).count_eq, List.count_append, files, Nat.zero_add,
    List.count_replicate_self]
  exact List.count_map_of_injective _ _ Path.ofText_injective name

/-- A directory that can be made is the only one of its name. -/
theorem Writable.unique {fs : FileSystem} {parent : Path} {place : Place} {ts : List Tree}
    (writable : Writable fs parent place ts) (dirs : List Text) :
    (dirNames (rowAt dirs ts)).Nodup := by
  rw [List.nodup_iff_count_le_one]
  intro name
  have puts := writable.puts (dirs.map Path.ofText) (Path.ofText name)
  rw [← count_dir_marks]
  by_cases dir : .dir ∈ marks ts (dirs.map Path.ofText) (Path.ofText name)
  · rw [puts_dir puts dir]
    exact Nat.le_refl 1
  · rw [List.count_eq_zero.mpr dir]
    exact Nat.zero_le 1

/-- At each place there are the same leaves and the same directories, in any order. -/
structure Shuffled (ts us : List Tree) : Prop where
  leaves : ∀ dirs, ((rowAt dirs ts).filterMap leaf?).Perm ((rowAt dirs us).filterMap leaf?)
  names : ∀ dirs, (dirNames (rowAt dirs ts)).Perm (dirNames (rowAt dirs us))

namespace Shuffled

variable {ts us : List Tree}

theorem refl (ts : List Tree) : Shuffled ts ts := ⟨fun _ => .refl _, fun _ => .refl _⟩

theorem symm (shuffled : Shuffled ts us) : Shuffled us ts :=
  ⟨fun dirs => (shuffled.leaves dirs).symm, fun dirs => (shuffled.names dirs).symm⟩

theorem trans {vs : List Tree} (first : Shuffled ts us) (second : Shuffled us vs) :
    Shuffled ts vs where
  leaves dirs := (first.leaves dirs).trans (second.leaves dirs)
  names dirs := (first.names dirs).trans (second.names dirs)

theorem append {more others : List Tree} (first : Shuffled ts us) (second : Shuffled more others) :
    Shuffled (ts ++ more) (us ++ others) where
  leaves dirs := by
    simp only [rowAt_append, List.filterMap_append]
    exact (first.leaves dirs).append (second.leaves dirs)
  names dirs := by
    simp only [rowAt_append, List.filterMap_append]
    exact (first.names dirs).append (second.names dirs)

theorem flatMap {α : Type} {found : List α} {row other : α → List Tree}
    (each : ∀ a ∈ found, Shuffled (row a) (other a)) :
    Shuffled (found.flatMap row) (found.flatMap other) := by
  induction found with
  | nil => exact .refl []
  | cons a found ih =>
    rw [List.forall_mem_cons] at each
    rw [List.flatMap_cons, List.flatMap_cons]
    exact each.1.append (ih each.2)

theorem of_perm {α : Type} {found others : List α} (perm : found.Perm others)
    (row : α → List Tree) : Shuffled (found.flatMap row) (others.flatMap row) where
  leaves dirs := by
    simp only [rowAt_flatMap, List.filterMap_flatMap]
    exact perm.flatMap_right _
  names dirs := by
    simp only [rowAt_flatMap, List.filterMap_flatMap]
    exact perm.flatMap_right _

theorem dir (shuffled : Shuffled ts us) (name : Text) :
    Shuffled [.dir name ts] [.dir name us] where
  leaves dirs := by
    cases dirs with
    | nil => exact .refl _
    | cons first rest =>
      rw [rowAt, rowAt, inside_dir, inside_dir, inside_nil, List.append_nil, List.append_nil]
      split
      · exact shuffled.leaves rest
      · exact .refl _
  names dirs := by
    cases dirs with
    | nil => exact .refl _
    | cons first rest =>
      rw [rowAt, rowAt, inside_dir, inside_dir, inside_nil, List.append_nil, List.append_nil]
      split
      · exact shuffled.names rest
      · exact .refl _

theorem eq_nil (shuffled : Shuffled ts us) (empty : ts = []) : us = [] := by
  subst empty
  have leaves := List.nil_perm.mp (shuffled.leaves [])
  have names := List.nil_perm.mp (shuffled.names [])
  cases us with
  | nil => rfl
  | cons t us => cases t <;> simp [rowAt, leaf?, dirName?] at leaves names

theorem dir? (shuffled : Shuffled ts us) (name : Text) :
    Shuffled (dir? name ts).toList (dir? name us).toList := by
  unfold Tree.dir?
  by_cases empty : ts = []
  · rw [empty, shuffled.eq_nil empty]
    exact .refl _
  · have other : us ≠ [] := fun nothing => empty (shuffled.symm.eq_nil nothing)
    rw [if_neg (by simpa using empty), if_neg (by simpa using other)]
    exact shuffled.dir name

/-- Which directory of a name comes first makes no difference to what is in the merged one. -/
theorem merged (shuffled : Shuffled ts us) : Shuffled (addAllTo ts []) (addAllTo us []) where
  leaves dirs := by
    rw [rowAt_addAllTo, rowAt_addAllTo, leaves_addAllTo, leaves_addAllTo]
    exact shuffled.leaves dirs
  names dirs := by
    rw [rowAt_addAllTo, rowAt_addAllTo]
    refine (List.perm_ext_iff_of_nodup (nodup_addAllTo _ [] List.nodup_nil)
      (nodup_addAllTo _ [] List.nodup_nil)).mpr fun name => ?_
    rw [mem_dirNames_addAllTo, mem_dirNames_addAllTo]
    exact (shuffled.names dirs).mem_iff

theorem leavesOf (shuffled : Shuffled ts us) : (leavesOf us).length = (leavesOf ts).length := by
  rw [← length_placedIn, ← length_placedIn]
  refine (List.perm_iff_count.mpr ?_).length_eq
  rintro ⟨dirs, l⟩
  rw [count_placedIn, count_placedIn]
  exact (shuffled.leaves dirs).symm.count_eq l

theorem marks (shuffled : Shuffled ts us) (dirs : List Name) (name : Name) :
    (marks ts dirs name).Perm (marks us dirs name) := by
  unfold Tree.marks
  rcases rowUnder_cases dirs (ts ++ us) with ⟨above, rfl⟩ | nothing
  · rw [rowUnder_ofText, rowUnder_ofText]
    have names := ((shuffled.names above).map Path.ofText).count_eq name
    refine (marks_perm _ name).trans (List.Perm.trans ?_ (marks_perm _ name).symm)
    rw [names]
    exact (((shuffled.leaves above).filter _).map _).append_right _
  · rw [rowUnder_append, List.append_eq_nil_iff] at nothing
    rw [nothing.1, nothing.2]

/-- Where all can be put and no report is put twice, there is no order to speak of. -/
theorem marks_eq (shuffled : Shuffled ts us) (single : Single ts) {before : Option Kind}
    {dirs : List Name} {name : Name} (puts : Puts before (Tree.marks ts dirs name)) :
    Tree.marks us dirs name = Tree.marks ts dirs name := by
  have perm := shuffled.marks dirs name
  have short : (Tree.marks ts dirs name).length ≤ 1 := by
    by_cases dir : .dir ∈ Tree.marks ts dirs name
    · rw [puts_dir puts dir]
      exact Nat.le_refl 1
    · rw [marks_eq_files ts dirs name dir, List.length_map]
      rcases leavesAt_cases ts dirs name with nothing | ⟨above, stem, same⟩
      · simp [nothing]
      · rw [same]
        exact single above stem
  generalize Tree.marks ts dirs name = kinds at perm short
  match kinds, short with
  | [], _ => exact List.nil_perm.mp perm
  | [kind], _ => exact (List.singleton_perm.mp perm).symm

theorem writable (shuffled : Shuffled ts us) {fs other : FileSystem} (same : SameContent fs other)
    {parent : Path} {place : Place} (writable : Writable fs parent place ts) :
    Writable other parent place us where
  named dirs name marked := by
    refine writable.named dirs name fun empty => marked ?_
    have perm := shuffled.marks dirs name
    rw [empty] at perm
    exact List.nil_perm.mp perm
  puts dirs name := by
    rw [same.kinds, ← puts_perm (shuffled.marks dirs name)]
    exact writable.puts dirs name

theorem wrote (shuffled : Shuffled ts us) (single : Single ts)
    {fs other later last : FileSystem} (same : SameContent fs other) {parent : Path} {place : Place}
    (writable : Writable fs parent place ts) (wrote : Wrote fs later place ts)
    (wrote_other : Wrote other last place us) : SameContent later last where
  here := by rw [wrote_other.keeps.here, wrote.keeps.here, same.here]
  kinds q := by
    by_cases below : ∃ dirs name, q = place ++ dirs ++ [name]
    · obtain ⟨dirs, name, rfl⟩ := below
      rw [wrote_other.inside, wrote.inside, same.kinds,
        shuffled.marks_eq single (writable.puts dirs name)]
    · have outside : ∀ dirs name, q ≠ place ++ dirs ++ [name] := fun dirs name at_place =>
        below ⟨dirs, name, at_place⟩
      rw [wrote_other.outside q outside, wrote.outside q outside, same.kinds]

/-- What is collected from the entries of two directories that hold the same. -/
theorem of_alike {entries others : List (Name × Node)}
    (alike : (Node.dir entries).Matches (.dir others)) (unique : (entries.map (·.1)).Nodup)
    (unique_other : (others.map (·.1)).Nodup) (row : Name → Node → List Tree)
    (each : ∀ name node found, (name, node) ∈ entries → (name, found) ∈ others →
      node.Matches found → Shuffled (row name node) (row name found)) :
    Shuffled (entries.flatMap fun e => row e.1 e.2) (others.flatMap fun e => row e.1 e.2) := by
  have by_name {entries : List (Name × Node)} (unique : (entries.map (·.1)).Nodup) :
      entries.flatMap (fun e => row e.1 e.2) =
        (entries.map (·.1)).flatMap fun name => ((entries.lookup name).map (row name)).getD [] := by
    rw [List.flatMap_map]
    refine List.flatMap_congr fun e member => ?_
    rw [Node.lookup_of_mem unique member]
    rfl
  rw [by_name unique, by_name unique_other]
  refine (of_perm (alike.names unique unique_other) _).trans (flatMap fun name member => ?_)
  obtain ⟨e, there, rfl⟩ := List.mem_map.mp member
  have listed_other := Node.lookup_of_mem unique_other there
  obtain ⟨node, listed, matched⟩ := alike.symm.lookup listed_other
  rw [listed, listed_other]
  exact each _ _ _ (Node.mem_of_lookup listed) there matched.symm

end Shuffled

section Read

variable (linked : Place → Path → Name → Option Tree)

/-- A walk reads the same of a directory in whatever order its entries are listed. -/
theorem shuffled_ofNode {node found : Node} (regular : node.Regular) (regular_found : found.Regular)
    (alike : node.Matches found) (place : Place) (path : Path) (name : Name) :
    Shuffled (ofNode? linked place path name node).toList
      (ofNode? linked place path name found).toList := by
  induction regular generalizing found place path name with
  | file bytes =>
    have kinds := alike.kind_eq
    cases found with
    | file bytes =>
      cases kinds
      exact .refl _
    | link target => cases kinds
    | dir others => cases kinds
  | @dir entries unique proper each ih =>
    obtain ⟨others, rfl⟩ := (Node.kind_eq_dir_iff found).mp alike.kind_eq
    simp only [ofNode?]
    split
    · exact .refl _
    · rw [ofEntries_eq, ofEntries_eq]
      refine (Shuffled.of_alike alike unique regular_found.unique
        (fun inner node =>
          (ofNode? linked (place ++ [name]) (Path.join path inner) inner node).toList)
        fun inner node found member there below => ?_).dir? _
      exact ih _ member (regular_found.each _ there) below _ _ _

theorem shuffled_ofEntries {entries others : List (Name × Node)}
    (regular : (Node.dir entries).Regular) (regular_other : (Node.dir others).Regular)
    (alike : (Node.dir entries).Matches (.dir others)) (place : Place) (path : Path) :
    Shuffled (ofEntries linked place path entries) (ofEntries linked place path others) := by
  rw [ofEntries_eq, ofEntries_eq]
  exact .of_alike alike regular.unique regular_other.unique
    (fun name node => (ofNode? linked place (Path.join path name) name node).toList)
    fun name node found member there below =>
      shuffled_ofNode linked (regular.each _ member) (regular_other.each _ there) below _ _ _

end Read

end SmaliReport.Tree
