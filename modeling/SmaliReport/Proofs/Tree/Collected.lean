import Mathlib.Data.List.Nodup
import Mathlib.Data.List.Pairwise
import Mathlib.Data.Set.Subsingleton
import SmaliReport.Proofs.Tree.Accepted
import SmaliReport.Proofs.Tree.Grouping

/-!
The tree that is read from a directory. It has a leaf for each accepted file that the walk meets,
under the texts of the file's names, and nothing else. Two files may have places with the same
texts; where they have not, their leaves stand alone in their places.
-/

namespace SmaliReport.Tree

/-- The leaves of this name that a directory has among its own entries. -/
def leavesNamed (ts : List Tree) (dirs : List Text) (name : Text) : List Leaf :=
  ((rowAt dirs ts).filterMap leaf?).filter (·.name = name)

theorem exists_leavesNamed (row : List Tree) (dirs : List Text) :
    (∃ name, leavesNamed row dirs name ≠ []) ↔ ∃ l, .leaf l ∈ rowAt dirs row := by
  constructor
  · rintro ⟨name, named⟩
    obtain ⟨l, member⟩ := List.exists_mem_of_ne_nil _ named
    obtain ⟨t, there, is_leaf⟩ := List.mem_filterMap.mp (List.mem_filter.mp member).1
    cases t with
    | leaf l => exact ⟨l, there⟩
    | dir other children => cases is_leaf
  · rintro ⟨l, there⟩
    have member : l ∈ leavesNamed row dirs l.name :=
      List.mem_filter.mpr ⟨List.mem_filterMap.mpr ⟨.leaf l, there, rfl⟩, by simp⟩
    exact ⟨l.name, List.ne_nil_of_mem member⟩

theorem dirs_of_filled (row : List Tree) (filled : ∀ t ∈ row, Filled t) (dirs : List Text)
    (name : Text) : name ∈ dirNames (rowAt dirs row) ↔
      ∃ more last, leavesNamed row (dirs ++ name :: more) last ≠ [] := by
  rw [dirNames, mem_dirName_iff row filled]
  simp only [exists_leavesNamed]

/-- A row with no directory for nothing has something just if it has a leaf somewhere. -/
theorem eq_nil_iff_leaves {row : List Tree} (dirs : ∀ dirs name, name ∈ dirNames (rowAt dirs row) ↔
    ∃ more last, leavesNamed row (dirs ++ name :: more) last ≠ []) :
    row = [] ↔ ∀ dirs name, leavesNamed row dirs name = [] := by
  constructor
  · rintro rfl dirs name
    simp [leavesNamed]
  · intro nothing
    cases row with
    | nil => rfl
    | cons t rest =>
      cases t with
      | leaf l =>
        obtain ⟨name, named⟩ := (exists_leavesNamed (.leaf l :: rest) []).mpr
          ⟨l, List.mem_cons_self⟩
        exact absurd (nothing [] name) named
      | dir name children =>
        obtain ⟨more, last, named⟩ := (dirs [] name).mp
          (List.mem_filterMap.mpr ⟨.dir name children, List.mem_cons_self, rfl⟩)
        exact absurd (nothing ([] ++ name :: more) last) named

theorem leavesNamed_flatMap {α : Type} (found : List α) (row : α → List Tree) (dirs : List Text)
    (name : Text) : leavesNamed (found.flatMap row) dirs name =
      found.flatMap fun a => leavesNamed (row a) dirs name := by
  simp only [leavesNamed, rowAt_flatMap, List.filterMap_flatMap, List.filter_flatMap]

/-- Of parts of which only one is not empty, and that one short, the whole is short. -/
theorem length_flatMap_le_one {α β : Type} (l : List α) (part : α → List β)
    (short : ∀ a ∈ l, (part a).length ≤ 1)
    (alone : l.Pairwise fun a b => part a = [] ∨ part b = []) : (l.flatMap part).length ≤ 1 := by
  induction l with
  | nil => exact Nat.zero_le 1
  | cons a l ih =>
    rw [List.forall_mem_cons] at short
    rw [List.pairwise_cons] at alone
    rw [List.flatMap_cons]
    by_cases empty : part a = []
    · rw [empty, List.nil_append]
      exact ih short.2 alone.2
    · have others : l.flatMap part = [] := by
        rw [List.flatMap_eq_nil_iff]
        exact fun b member => (alone.1 b member).resolve_left empty
      rw [others, List.append_nil]
      exact short.1

section Walk

variable (linked : Place → Path → Name → Option Tree)

theorem ofEntries_eq (place : Place) (path : Path) (entries : List (Name × Node)) :
    ofEntries linked place path entries =
      entries.flatMap fun e => (ofNode? linked place (Path.join path e.1) e.1 e.2).toList := by
  induction entries with
  | nil => rfl
  | cons entry rest ih => rw [ofEntries, ih, List.flatMap_cons]

theorem mem_leaf_ofNode (place : Place) (path : Path) (file : Name) (node : Node)
    (regular : node.Regular) (name : Text) (l : Leaf) :
    l ∈ leavesNamed (ofNode? linked place path file node).toList [] name ↔
      ∃ stem, file = smaliFile stem ∧ Path.text stem = name ∧
        Leaf.found? path stem (some node) = some l := by
  cases regular with
  | dir unique proper each =>
    simp only [ofNode?, dir?]
    split
    · simp [leavesNamed, rowAt, Leaf.found?]
    · split <;> simp [leavesNamed, rowAt, leaf?, List.filterMap_cons, Leaf.found?]
  | file bytes =>
    have leaf : l ∈ leavesNamed (ofNode? linked place path file (.file bytes)).toList [] name ↔
        (isSmali file = true ∧ Path.fits path = true) ∧ Leaf.ofFile? file bytes = some l ∧
          l.name = name := by
      simp only [ofNode?, Bool.and_eq_true]
      split
      · rename_i read
        cases parsed : Leaf.ofFile? file bytes with
        | none => simp [leavesNamed, rowAt]
        | some other =>
          simp only [leavesNamed, rowAt, leaf?, Option.map_some, Option.toList_some,
            List.filterMap_cons, List.filterMap_nil, List.mem_filter, List.mem_singleton,
            decide_eq_true_eq, read, and_self, true_and, Option.some.injEq]
          exact and_congr_left' eq_comm
      · rename_i unread
        simp [leavesNamed, rowAt, unread]
    rw [leaf, isSmali_iff]
    constructor
    · rintro ⟨⟨⟨stem, given, rfl⟩, fits⟩, parsed, named⟩
      rw [Leaf.ofFile?, nameOf_smaliFile] at parsed
      exact ⟨stem, rfl, (Leaf.name_ofSmali parsed).symm.trans named,
        (if_pos ⟨given, fits⟩).trans parsed⟩
    · rintro ⟨stem, rfl, named, found⟩
      simp only [Leaf.found?] at found
      split at found
      · rename_i read
        refine ⟨⟨⟨stem, read.1, rfl⟩, read.2⟩, ?_, (Leaf.name_ofSmali found).trans named⟩
        rwa [Leaf.ofFile?, nameOf_smaliFile]
      · cases found

theorem inside_dir? (first name : Text) (children : List Tree) :
    inside first (dir? name children).toList = if name = first then children else [] := by
  unfold dir?
  cases children with
  | nil => simp
  | cons t row => simp

/-- Going into a directory of the tree is going into those of the file system whose names have its
name as their text. -/
theorem inside_ofNode (place : Place) (path : Path) (first : Text) (name : Name) (node : Node)
    (regular : node.Regular) :
    inside first (ofNode? linked place path name node).toList =
      match node with
      | .dir inner =>
        if Path.text name = first ∧ isSmali name = false ∧ Path.fits path then
          ofEntries linked (place ++ [name]) path inner
        else []
      | _ => [] := by
  cases regular with
  | file bytes =>
    simp only [ofNode?]
    split
    · cases Leaf.ofFile? name bytes <;> rfl
    · rfl
  | dir unique proper each =>
    rename_i entries
    simp only [ofNode?]
    split
    · rename_i left
      rw [if_neg]
      · rfl
      · rintro ⟨_, smali, fits⟩
        simp [smali, fits] at left
    · rename_i kept
      rw [inside_dir?]
      have walked : isSmali name = false ∧ Path.fits path = true := by simpa using kept
      by_cases same : Path.text name = first
      · rw [if_pos same, if_pos ⟨same, walked⟩]
      · rw [if_neg same, if_neg (fun all => same all.1)]

theorem mem_leaves_ofNode (place : Place) (path : Path) (first : Text) (rest : List Text)
    (file : Name) (node : Node) (regular : node.Regular) (name : Text) (l : Leaf) :
    l ∈ leavesNamed (ofNode? linked place path file node).toList (first :: rest) name ↔
      Path.text file = first ∧ isSmali file = false ∧ Path.fits path ∧ ∃ inner,
        node = .dir inner ∧
          l ∈ leavesNamed (ofEntries linked (place ++ [file]) path inner) rest name := by
  change l ∈ leavesNamed (inside first _) rest name ↔ _
  rw [inside_ofNode linked place path first file node regular]
  cases node with
  | file bytes => simp [leavesNamed]
  | link target => simp [leavesNamed]
  | dir inner =>
    simp only [Node.dir.injEq, exists_eq_left']
    split
    · rename_i walked
      simp [walked]
    · rename_i kept
      simp only [leavesNamed, rowAt_nil, List.filterMap_nil, List.filter_nil, List.not_mem_nil,
        false_iff]
      exact fun all => kept ⟨all.1, all.2.1, all.2.2.1⟩

/-- The leaves of a walk are those of the accepted files that it meets, under the texts of their
names. -/
theorem mem_leavesNamed_iff (place : Place) (path : Path) (entries : List (Name × Node))
    (regular : (Node.dir entries).Regular) (dirs : List Text) (name : Text) (l : Leaf) :
    l ∈ leavesNamed (ofEntries linked place path entries) dirs name ↔
      ∃ above stem, above.map Path.text = dirs ∧ Path.text stem = name ∧
        Leaf.met? path (.dir entries) above stem = some l := by
  induction dirs generalizing place path entries with
  | nil =>
    rw [ofEntries_eq, leavesNamed_flatMap, List.mem_flatMap]
    constructor
    · rintro ⟨⟨file, node⟩, member, there⟩
      obtain ⟨stem, rfl, named, found⟩ :=
        (mem_leaf_ofNode linked place _ file node (regular.each _ member) name l).mp there
      refine ⟨[], stem, rfl, named, ?_⟩
      rw [met_here, Node.lookup_of_mem regular.unique member, found]
    · rintro ⟨above, stem, texts, named, met⟩
      obtain rfl := List.map_eq_nil_iff.mp texts
      rw [met_here] at met
      cases there : entries.lookup (smaliFile stem) with
      | none =>
        rw [there] at met
        cases met
      | some node =>
        have member := Node.mem_of_lookup there
        rw [there] at met
        exact ⟨_, member, (mem_leaf_ofNode linked place _ _ node (regular.each _ member) name l).mpr
          ⟨stem, rfl, named, met⟩⟩
  | cons first rest ih =>
    rw [ofEntries_eq, leavesNamed_flatMap, List.mem_flatMap]
    constructor
    · rintro ⟨⟨file, node⟩, member, there⟩
      have regular_node := regular.each _ member
      obtain ⟨rfl, walked, fits, inner, rfl, there⟩ :=
        (mem_leaves_ofNode linked place _ first rest file node regular_node name l).mp there
      obtain ⟨above, stem, rfl, named, met⟩ := (ih _ _ inner regular_node).mp there
      refine ⟨file :: above, stem, rfl, named, ?_⟩
      rw [met_below_iff path entries regular]
      exact ⟨walked, fits, inner, Node.lookup_of_mem regular.unique member, met⟩
    · rintro ⟨above, stem, texts, named, met⟩
      cases above with
      | nil => cases texts
      | cons file above =>
        obtain ⟨rfl, rfl⟩ := List.cons.inj texts
        obtain ⟨walked, fits, inner, there, met⟩ :=
          (met_below_iff path entries regular file above stem l).mp met
        have member := Node.mem_of_lookup there
        have regular_inner := regular.each _ member
        refine ⟨_, member,
          (mem_leaves_ofNode linked place _ _ _ file _ regular_inner name l).mpr ?_⟩
        exact ⟨rfl, walked, fits, inner, rfl,
          (ih _ _ inner regular_inner).mpr ⟨above, stem, rfl, named, met⟩⟩

/-- The accepted files that a walk meets at places with these texts. -/
def metAs (path : Path) (node : Node) (dirs : List Text) (name : Text) : Set (Place × Name) :=
  {file | file.1.map Path.text = dirs ∧ Path.text file.2 = name ∧
    Leaf.met? path node file.1 file.2 ≠ none}

/-- A leaf that comes from an entry is that of a file which the entry leads to. -/
theorem exists_metAs (place : Place) (path : Path) {entries : List (Name × Node)}
    (regular : (Node.dir entries).Regular) {e : Name × Node} (member : e ∈ entries)
    (dirs : List Text) (name : Text)
    (some_leaf :
      leavesNamed (ofNode? linked place (Path.join path e.1) e.1 e.2).toList dirs name ≠ []) :
    ∃ file ∈ metAs path (.dir entries) dirs name,
      (file.1 ++ [smaliFile file.2]).head? = some e.1 := by
  obtain ⟨file, node⟩ := e
  have there := Node.lookup_of_mem regular.unique member
  have regular_node := regular.each _ member
  obtain ⟨l, leaf⟩ := List.exists_mem_of_ne_nil _ some_leaf
  cases dirs with
  | nil =>
    obtain ⟨stem, rfl, named, found⟩ :=
      (mem_leaf_ofNode linked place _ file node regular_node name l).mp leaf
    refine ⟨([], stem), ⟨rfl, named, ?_⟩, rfl⟩
    rw [met_here, there, found]
    exact nofun
  | cons first rest =>
    obtain ⟨rfl, walked, fits, inner, rfl, leaf⟩ :=
      (mem_leaves_ofNode linked place _ first rest file node regular_node name l).mp leaf
    obtain ⟨above, stem, rfl, named, met⟩ :=
      (mem_leavesNamed_iff linked _ _ inner regular_node rest name l).mp leaf
    refine ⟨(file :: above, stem), ⟨rfl, named, ?_⟩, rfl⟩
    rw [(met_below_iff path entries regular file above stem l).mpr
      ⟨walked, fits, inner, there, met⟩]
    exact nofun

theorem pairwise_leaves (place : Place) (path : Path) {entries : List (Name × Node)}
    (regular : (Node.dir entries).Regular) (dirs : List Text) (name : Text)
    (alone : (metAs path (.dir entries) dirs name).Subsingleton) :
    entries.Pairwise fun e f =>
      leavesNamed (ofNode? linked place (Path.join path e.1) e.1 e.2).toList dirs name = [] ∨
        leavesNamed (ofNode? linked place (Path.join path f.1) f.1 f.2).toList dirs name = [] := by
  have names : entries.Pairwise fun e f => e.1 ≠ f.1 := List.pairwise_map.mp regular.unique
  refine names.imp_of_mem fun {e f} member member_other differ => ?_
  by_contra both
  rw [not_or] at both
  obtain ⟨file, met, first⟩ := exists_metAs linked place path regular member dirs name both.1
  obtain ⟨other, met_other, first_other⟩ :=
    exists_metAs linked place path regular member_other dirs name both.2
  rw [alone met met_other] at first
  exact differ (Option.some.inj (first.symm.trans first_other))

theorem metAs_inner {path : Path} {entries inner : List (Name × Node)}
    (regular : (Node.dir entries).Regular) {file : Name} (member : (file, .dir inner) ∈ entries)
    (walked : isSmali file = false) (fits : Path.fits (Path.join path file)) {rest : List Text}
    {name : Text} (alone : (metAs path (.dir entries) (Path.text file :: rest) name).Subsingleton) :
    (metAs (Path.join path file) (.dir inner) rest name).Subsingleton := by
  have lifted (found : Place × Name)
      (met : found ∈ metAs (Path.join path file) (.dir inner) rest name) :
      (file :: found.1, found.2) ∈ metAs path (.dir entries) (Path.text file :: rest) name := by
    obtain ⟨texts, named, met⟩ := met
    refine ⟨congrArg (List.cons (Path.text file)) texts, named, ?_⟩
    obtain ⟨l, met⟩ := Option.ne_none_iff_exists'.mp met
    have there := Node.lookup_of_mem regular.unique member
    rw [(met_below_iff path entries regular file found.1 found.2 l).mpr
      ⟨walked, fits, inner, there, met⟩]
    exact nofun
  intro found met other met_other
  have same := alone (lifted found met) (lifted other met_other)
  exact Prod.ext (List.cons.inj (Prod.mk.inj same).1).2 (Prod.mk.inj same).2

/-- Where no two files have places with the same texts, no two leaves are in one place. -/
theorem length_leavesNamed_le_one (place : Place) (path : Path) (entries : List (Name × Node))
    (regular : (Node.dir entries).Regular) (dirs : List Text) (name : Text)
    (alone : (metAs path (.dir entries) dirs name).Subsingleton) :
    (leavesNamed (ofEntries linked place path entries) dirs name).length ≤ 1 := by
  induction dirs generalizing place path entries with
  | nil =>
    rw [ofEntries_eq, leavesNamed_flatMap]
    refine length_flatMap_le_one _ _ (fun e member => ?_)
      (pairwise_leaves linked place path regular [] name alone)
    cases ofNode? linked place (Path.join path e.1) e.1 e.2 with
    | none => simp [leavesNamed]
    | some t => exact (List.length_filter_le _ _).trans (List.length_filterMap_le leaf? [t])
  | cons first rest ih =>
    rw [ofEntries_eq, leavesNamed_flatMap]
    refine length_flatMap_le_one _ _ (fun e member => ?_)
      (pairwise_leaves linked place path regular (first :: rest) name alone)
    obtain ⟨file, node⟩ := e
    change (leavesNamed (inside first _) rest name).length ≤ 1
    rw [inside_ofNode linked _ _ first file node (regular.each _ member)]
    cases node with
    | file bytes => simp [leavesNamed]
    | link target => simp [leavesNamed]
    | dir inner =>
      simp only
      split
      · rename_i kept
        obtain ⟨rfl, walked, fits⟩ := kept
        exact ih _ _ inner (regular.each _ member) (metAs_inner regular member walked fits alone)
      · simp [leavesNamed]

theorem unique_inner {row : List Tree} (unique : ∀ dirs, (dirNames (rowAt dirs row)).Nodup)
    {name : Text} {children : List Tree} (member : .dir name children ∈ row) (dirs : List Text) :
    (dirNames (rowAt dirs children)).Nodup := by
  obtain ⟨front, back, rfl⟩ := List.append_of_mem member
  have whole := unique (name :: dirs)
  rw [rowAt_append, rowAt, rowAt, inside_dir, if_pos rfl, rowAt_append, dirNames,
    List.filterMap_append, List.filterMap_append] at whole
  exact (List.Nodup.of_append_right whole).of_append_left

/-- A walk makes a directory of the tree of one that it meets a file in. -/
theorem mem_dir_of_met (place : Place) (path : Path) {inner : List (Name × Node)}
    (regular : (Node.dir inner).Regular) {first : Name} (walked : isSmali first = false)
    (fits : Path.fits (Path.join path first)) {above : Place} {stem : Name} {l : Leaf}
    (met : Leaf.met? (Path.join path first) (.dir inner) above stem = some l) :
    .dir (Path.text first) (ofEntries linked (place ++ [first]) (Path.join path first) inner) ∈
      (ofNode? linked place (Path.join path first) first (.dir inner)).toList := by
  have given : ofEntries linked (place ++ [first]) (Path.join path first) inner ≠ [] := by
    intro nothing
    have leaf := (mem_leavesNamed_iff linked (place ++ [first]) _ inner regular _ _ l).mpr
      ⟨above, stem, rfl, rfl, met⟩
    rw [nothing] at leaf
    simp [leavesNamed] at leaf
  simp [ofNode?, walked, fits, dir?, given]

/-- Where no two directories have one name, each comes from an entry of its own. -/
theorem entry_of_dir (place : Place) (path : Path) {entries : List (Name × Node)}
    (unique : (dirNames (ofEntries linked place path entries)).Nodup) {e f : Name × Node}
    (member : e ∈ entries) (member_other : f ∈ entries) {name : Text} {children others : List Tree}
    (dir : .dir name children ∈ (ofNode? linked place (Path.join path e.1) e.1 e.2).toList)
    (dir_other : .dir name others ∈ (ofNode? linked place (Path.join path f.1) f.1 f.2).toList) :
    e = f := by
  rw [ofEntries_eq, dirNames, List.filterMap_flatMap, List.nodup_flatMap] at unique
  by_contra differ
  have symm : Std.Symm (Function.onFun List.Disjoint fun e : Name × Node =>
      (ofNode? linked place (Path.join path e.1) e.1 e.2).toList.filterMap dirName?) :=
    ⟨fun _ _ apart _ first second => apart second first⟩
  exact unique.2.forall member member_other differ (List.mem_filterMap.mpr ⟨_, dir, rfl⟩)
    (List.mem_filterMap.mpr ⟨_, dir_other, rfl⟩)

/-- If no two directories of the tree are at one place, files at places with the same texts are in
the same directory. -/
theorem above_of_metAs (place : Place) (path : Path) (entries : List (Name × Node))
    (regular : (Node.dir entries).Regular)
    (unique : ∀ dirs, (dirNames (rowAt dirs (ofEntries linked place path entries))).Nodup)
    (dirs : List Text) (name : Text) {file other : Place × Name}
    (met : file ∈ metAs path (.dir entries) dirs name)
    (met_other : other ∈ metAs path (.dir entries) dirs name) : file.1 = other.1 := by
  induction dirs generalizing place path entries file other with
  | nil => rw [List.map_eq_nil_iff.mp met.1, List.map_eq_nil_iff.mp met_other.1]
  | cons text rest ih =>
    obtain ⟨_ | ⟨first, above⟩, stem⟩ := file
    · cases met.1
    obtain ⟨_ | ⟨second, beside⟩, twin⟩ := other
    · cases met_other.1
    obtain ⟨texts, named, met⟩ := met
    obtain ⟨texts_other, named_other, met_other⟩ := met_other
    obtain ⟨rfl, below⟩ := List.cons.inj texts
    obtain ⟨same, below_other⟩ := List.cons.inj texts_other
    obtain ⟨l, met⟩ := Option.ne_none_iff_exists'.mp met
    obtain ⟨m, met_other⟩ := Option.ne_none_iff_exists'.mp met_other
    obtain ⟨walked, fits, inner, there, met⟩ := (met_below_iff _ _ regular _ _ _ l).mp met
    obtain ⟨walked_other, fits_other, inner_other, there_other, met_other⟩ :=
      (met_below_iff _ _ regular _ _ _ m).mp met_other
    have member := Node.mem_of_lookup there
    have member_other := Node.mem_of_lookup there_other
    have dir := mem_dir_of_met linked place path (regular.each _ member) walked fits met
    have dir_other := mem_dir_of_met linked place path (regular.each _ member_other) walked_other
      fits_other met_other
    rw [same] at dir_other
    have entry := entry_of_dir linked place path (unique []) member member_other dir dir_other
    obtain ⟨rfl, one⟩ := Prod.mk.inj entry
    obtain rfl := Node.dir.inj one
    rw [ofEntries_eq] at unique
    have unique_below := unique_inner unique (List.mem_flatMap.mpr ⟨_, member, dir⟩)
    have found : (above, stem) ∈ metAs (Path.join path first) (.dir inner) rest name :=
      ⟨below, named, by simp [met]⟩
    have found_other : (beside, twin) ∈ metAs (Path.join path first) (.dir inner) rest name :=
      ⟨below_other, named_other, by simp [met_other]⟩
    exact congrArg (List.cons first)
      (ih _ _ inner (regular.each _ member) unique_below found found_other)

/-- Where all names are texts, the leaves of a walk are the accepted files that it meets, each at
its own place. -/
theorem leaves_met (place : Place) (path : Path) (entries : List (Name × Node))
    (regular : (Node.dir entries).Regular) (textual : (Node.dir entries).Textual)
    (dirs : List Text) (name : Text) :
    leavesNamed (ofEntries linked place path entries) dirs name =
      (Leaf.met? path (.dir entries) (dirs.map Path.ofText) (Path.ofText name)).toList := by
  have known (file : Place × Name) (met : file ∈ metAs path (.dir entries) dirs name) :
      file = (dirs.map Path.ofText, Path.ofText name) := by
    obtain ⟨rfl, rfl, met⟩ := met
    obtain ⟨above, stem⟩ := texts_of_met textual met
    exact Prod.ext above.symm stem.symm
  have short := length_leavesNamed_le_one linked place path entries regular dirs name
    fun file met other met_other => (known file met).trans (known other met_other).symm
  have members (l : Leaf) : l ∈ leavesNamed (ofEntries linked place path entries) dirs name ↔
      Leaf.met? path (.dir entries) (dirs.map Path.ofText) (Path.ofText name) = some l := by
    rw [mem_leavesNamed_iff linked place path entries regular]
    constructor
    · rintro ⟨above, stem, texts, named, met⟩
      have same := known (above, stem) ⟨texts, named, by simp [met]⟩
      obtain ⟨rfl, rfl⟩ := Prod.mk.inj same
      exact met
    · intro met
      exact ⟨_, _, Path.texts_ofText dirs, Path.text_ofText name, met⟩
  generalize leavesNamed (ofEntries linked place path entries) dirs name = leaves at short members
  cases met : Leaf.met? path (.dir entries) (dirs.map Path.ofText) (Path.ofText name) with
  | none =>
    rw [met] at members
    exact List.eq_nil_iff_forall_not_mem.mpr fun l member => nomatch (members l).mp member
  | some l =>
    have there := (members l).mpr met
    match leaves, short with
    | [other], _ => rw [List.mem_singleton.mp there]; rfl

mutual

/-- What is read of a regular node has no empty directory, and names that a path can have. -/
theorem sound_ofNode (place : Place) (path : Path) (name : Name) :
    ∀ (node : Node), node.Regular → Node.ProperName name →
      ∀ t ∈ ofNode? linked place path name node, Filled t ∧ Proper t
  | .file bytes, _, proper => by
    intro t read
    simp only [ofNode?] at read
    split at read
    · rename_i smali
      simp only [Bool.and_eq_true] at smali
      obtain ⟨stem, _, rfl⟩ := (isSmali_iff name).mp smali.1
      obtain ⟨l, parsed, rfl⟩ := Option.map_eq_some_iff.mp read
      refine ⟨.leaf l, .leaf ?_⟩
      rw [Leaf.name_ofSmali parsed, nameOf_smaliFile]
      intro slash
      have stem_slash : Path.slash ∈ stem := Text.mem_of_mem_lossy (by decide) slash
      exact proper.slash (List.mem_append_left _ stem_slash)
    · cases read
  | .link target, regular, _ => nomatch regular
  | .dir entries, .dir _ names each, proper => by
    intro t read
    simp only [ofNode?] at read
    split at read
    · cases read
    · have below := sound_ofEntries (place ++ [name]) path entries names each
      unfold dir? at read
      split at read
      · cases read
      · rename_i nonempty
        cases read
        refine ⟨.dir _ (by simpa using nonempty) fun t member => (below t member).1, ?_⟩
        exact .dir proper.text fun t member => (below t member).2

theorem sound_ofEntries (place : Place) (path : Path) :
    ∀ (entries : List (Name × Node)), (∀ e ∈ entries, Node.ProperName e.1) →
      (∀ e ∈ entries, e.2.Regular) → ∀ t ∈ ofEntries linked place path entries, Filled t ∧ Proper t
  | [], _, _ => by simp [ofEntries]
  | (name, node) :: rest, names, each => by
    rw [List.forall_mem_cons] at names each
    intro t member
    rw [ofEntries, List.mem_append, Option.mem_toList] at member
    rcases member with first | later
    · exact sound_ofNode place (Path.join path name) name node each.1 names.1 t first
    · exact sound_ofEntries place path rest names.2 each.2 t later

end

/-- What is read of links where there are none. -/
def unlinked : Place → Path → Name → Option Tree := fun _ _ _ => none

mutual

/-- Without links it makes no difference where the walk is. -/
theorem ofNode_linked (place other : Place) (path : Path) (name : Name) :
    ∀ node : Node, node.Regular →
    ofNode? linked place path name node = ofNode? unlinked other path name node
  | .file _, _ => rfl
  | .link _, regular => nomatch regular
  | .dir entries, .dir _ _ each => by
    rw [ofNode?, ofNode?, ofEntries_linked (place ++ [name]) (other ++ [name]) path entries each]

theorem ofEntries_linked (place other : Place) (path : Path) : ∀ entries : List (Name × Node),
    (∀ e ∈ entries, e.2.Regular) →
      ofEntries linked place path entries = ofEntries unlinked other path entries
  | [], _ => rfl
  | (name, node) :: rest, each => by
    rw [List.forall_mem_cons] at each
    rw [ofEntries, ofEntries, ofNode_linked place other (Path.join path name) name node each.1,
      ofEntries_linked place other path rest each.2]

end

end Walk

end SmaliReport.Tree
