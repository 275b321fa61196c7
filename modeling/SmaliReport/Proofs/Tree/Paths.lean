import SmaliReport.Tree.Basic
import SmaliReport.Proofs.FileSystem.Texts

/-! Places in a tree by the names of directories. Nothing here assumes that siblings have
different names, so a path may reach several directories, in the order of a walk that visits
every child before the next one. The names of a tree are texts, and those it is written under the
bytes of these. -/

namespace SmaliReport.Tree

/-- No directory at any depth is without children. -/
inductive Filled : Tree → Prop where
  | leaf (l : Leaf) : Filled (.leaf l)
  | dir (name : Text) {children : List Tree} :
      children ≠ [] → (∀ t ∈ children, Filled t) → Filled (.dir name children)

/-- Names that stand for themselves in a path. -/
inductive Proper : Tree → Prop where
  | leaf {l : Leaf} : '/' ∉ l.name → Proper (.leaf l)
  | dir {name : Text} {children : List Tree} :
      Node.PlainName (Path.ofText name) → (∀ t ∈ children, Proper t) → Proper (.dir name children)

/-- The directories that a path of names leads to from a tree, the tree itself by no names. -/
def reached : List Text → Tree → List Tree
  | _, .leaf _ => []
  | [], .dir name children => [.dir name children]
  | first :: rest, .dir _ children =>
    children.flatMap fun t => if t.name = first then reached rest t else []

/-- What a reader of a directory sees of an entry: a leaf as a whole, a directory by its name. -/
def entry : Tree → Leaf ⊕ Text
  | .leaf l => .inl l
  | .dir name _ => .inr name

def leaf? : Tree → Option Leaf
  | .leaf l => some l
  | .dir _ _ => none

def dirName? : Tree → Option Text
  | .leaf _ => none
  | .dir name _ => some name

/-- The children of the directories with this name, in order. -/
def inside (name : Text) (row : List Tree) : List Tree :=
  row.flatMap fun
    | .leaf _ => []
    | .dir other children => if other = name then children else []

/-- The children of all directories that a path leads to from a row of children. -/
def rowAt : List Text → List Tree → List Tree
  | [], row => row
  | first :: rest, row => rowAt rest (inside first row)

/-- The children of the directories that are written under this name, in order. -/
def under (name : Name) (row : List Tree) : List Tree :=
  row.flatMap fun
    | .leaf _ => []
    | .dir other children => if Path.ofText other = name then children else []

/-- The children of all directories that are written to a place below a row of children. -/
def rowUnder : Place → List Tree → List Tree
  | [], row => row
  | first :: rest, row => rowUnder rest (under first row)

/-- The directories that a path of at least one name leads to from a row of children. -/
def reachedIn (row : List Tree) : List Text → List Tree
  | [] => []
  | first :: rest => row.flatMap fun t => if t.name = first then reached rest t else []

@[simp] theorem filled_leaf (l : Leaf) : Filled (.leaf l) := .leaf l

@[simp] theorem filled_dir_iff (name : Text) (children : List Tree) :
    Filled (.dir name children) ↔ children ≠ [] ∧ ∀ t ∈ children, Filled t := by
  constructor
  · rintro (_ | ⟨_, nonempty, all⟩)
    exact ⟨nonempty, all⟩
  · rintro ⟨nonempty, all⟩
    exact .dir name nonempty all

@[simp] theorem reached_leaf (path : List Text) (l : Leaf) : reached path (.leaf l) = [] := by
  cases path <;> rfl

@[simp] theorem reached_nil (name : Text) (children : List Tree) :
    reached [] (.dir name children) = [.dir name children] := rfl

theorem reached_cons (first : Text) (rest : List Text) (t : Tree) :
    reached (first :: rest) t = reachedIn t.children (first :: rest) := by
  cases t <;> rfl

@[simp] theorem inside_nil (name : Text) : inside name [] = [] := rfl

@[simp] theorem inside_leaf (name : Text) (l : Leaf) (row : List Tree) :
    inside name (.leaf l :: row) = inside name row := rfl

@[simp] theorem inside_dir (name other : Text) (children row : List Tree) :
    inside name (.dir other children :: row) =
      (if other = name then children else []) ++ inside name row := rfl

theorem inside_append (name : Text) (row more : List Tree) :
    inside name (row ++ more) = inside name row ++ inside name more := List.flatMap_append

theorem inside_of_not_mem (name : Text) (row : List Tree)
    (absent : name ∉ row.filterMap dirName?) : inside name row = [] := by
  induction row with
  | nil => rfl
  | cons t row ih =>
    cases t with
    | leaf l => exact ih absent
    | dir other children =>
      simp only [List.filterMap_cons, dirName?, List.mem_cons, not_or] at absent
      simp only [inside_dir, if_neg (Ne.symm absent.1), ih absent.2, List.append_nil]

theorem rowAt_append (path : List Text) (row more : List Tree) :
    rowAt path (row ++ more) = rowAt path row ++ rowAt path more := by
  induction path generalizing row more with
  | nil => rfl
  | cons first rest ih => simp only [rowAt, inside_append, ih]

@[simp] theorem rowAt_nil (path : List Text) : rowAt path [] = [] := by
  induction path with
  | nil => rfl
  | cons first rest ih => simpa only [rowAt, inside_nil] using ih

theorem rowAt_flatMap {α : Type} (found : List α) (row : α → List Tree) (path : List Text) :
    rowAt path (found.flatMap row) = found.flatMap fun a => rowAt path (row a) := by
  induction found with
  | nil => simp
  | cons a found ih => simp only [List.flatMap_cons, rowAt_append, ih]

theorem reachedIn_leaf (l : Leaf) (row : List Tree) (first : Text) (rest : List Text) :
    reachedIn (.leaf l :: row) (first :: rest) = reachedIn row (first :: rest) := by
  simp [reachedIn]

theorem reachedIn_dir (name : Text) (children row : List Tree) (first : Text) (rest : List Text) :
    reachedIn (.dir name children :: row) (first :: rest) =
      (if name = first then reached rest (.dir name children) else []) ++
        reachedIn row (first :: rest) := rfl

theorem reachedIn_append (row more : List Tree) (path : List Text) :
    reachedIn (row ++ more) path = reachedIn row path ++ reachedIn more path := by
  cases path with
  | nil => rfl
  | cons first rest => exact List.flatMap_append

theorem reachedIn_cons (row : List Tree) (first second : Text) (rest : List Text) :
    reachedIn row (first :: second :: rest) = reachedIn (inside first row) (second :: rest) := by
  induction row with
  | nil => rfl
  | cons t row ih =>
    cases t with
    | leaf l => rw [reachedIn_leaf, inside_leaf, ih]
    | dir name inner =>
      rw [reachedIn_dir, inside_dir, reachedIn_append, ih, reached_cons, children]
      by_cases same : name = first
      · rw [if_pos same, if_pos same]
      · rw [if_neg same, if_neg same]
        rfl

/-- The children of all reached directories, listed without the directories. -/
theorem flatMap_children_reached (path : List Text) (t : Tree) :
    (reached path t).flatMap children = rowAt path t.children := by
  induction path generalizing t with
  | nil => cases t <;> simp [children, rowAt]
  | cons first rest ih =>
    rw [reached_cons, rowAt]
    induction t.children with
    | nil => simp [reachedIn]
    | cons t row hrow =>
      cases t with
      | leaf l => rw [reachedIn_leaf, inside_leaf, hrow]
      | dir name inner =>
        rw [reachedIn_dir, List.flatMap_append, hrow, inside_dir, rowAt_append]
        by_cases same : name = first
        · rw [if_pos same, if_pos same, ih, children]
        · rw [if_neg same, if_neg same, rowAt_nil, List.flatMap_nil]

theorem flatMap_rowAt (path : List Text) (ts : List Tree) :
    (ts.flatMap (reached path)).flatMap children = rowAt path (ts.flatMap children) := by
  induction ts with
  | nil => simp
  | cons t ts ih =>
    simp only [List.flatMap_cons, List.flatMap_append, ih, flatMap_children_reached, rowAt_append]

theorem flatMap_reached_cons (ts : List Tree) (first : Text) (rest : List Text) :
    ts.flatMap (reached (first :: rest)) = reachedIn (ts.flatMap children) (first :: rest) := by
  induction ts with
  | nil => rfl
  | cons t ts ih =>
    simp only [List.flatMap_cons, ih, reached_cons, reachedIn_append]

theorem rowAt_append_path (path more : List Text) (row : List Tree) :
    rowAt (path ++ more) row = rowAt more (rowAt path row) := by
  induction path generalizing row with
  | nil => rfl
  | cons first rest ih => exact ih (inside first row)

theorem rowAt_of_mem (path : List Text) (row : List Tree) (t : Tree) (member : t ∈ row) :
    ∀ u ∈ rowAt path [t], u ∈ rowAt path row := by
  obtain ⟨before, after, rfl⟩ := List.append_of_mem member
  intro u there
  rw [← List.singleton_append, rowAt_append, rowAt_append, List.mem_append, List.mem_append]
  exact .inr (.inl there)

theorem filled_inside (name : Text) (row : List Tree) (filled : ∀ t ∈ row, Filled t) :
    ∀ t ∈ inside name row, Filled t := by
  intro t member
  obtain ⟨u, there, member⟩ := List.mem_flatMap.mp member
  cases u with
  | leaf l => cases member
  | dir other children =>
    have each := ((filled_dir_iff other children).mp (filled _ there)).2
    simp only at member
    split at member
    · exact each t member
    · cases member

theorem filled_rowAt (path : List Text) (row : List Tree) (filled : ∀ t ∈ row, Filled t) :
    ∀ t ∈ rowAt path row, Filled t := by
  induction path generalizing row with
  | nil => exact filled
  | cons first rest ih => exact ih (inside first row) (filled_inside first row filled)

theorem exists_leaf (t : Tree) (filled : Filled t) : ∃ path l, .leaf l ∈ rowAt path [t] := by
  induction filled with
  | leaf l => exact ⟨[], l, List.mem_singleton.mpr rfl⟩
  | dir name nonempty each ih =>
    obtain ⟨child, member⟩ := List.exists_mem_of_ne_nil _ nonempty
    obtain ⟨path, l, there⟩ := ih child member
    refine ⟨name :: path, l, ?_⟩
    rw [rowAt, inside_dir, if_pos rfl, inside_nil, List.append_nil]
    exact rowAt_of_mem path _ child member _ there

@[simp] theorem under_nil (name : Name) : under name [] = [] := rfl

@[simp] theorem under_leaf (name : Name) (l : Leaf) (row : List Tree) :
    under name (.leaf l :: row) = under name row := rfl

@[simp] theorem under_dir (name : Name) (other : Text) (children row : List Tree) :
    under name (.dir other children :: row) =
      (if Path.ofText other = name then children else []) ++ under name row := rfl

theorem under_append (name : Name) (row more : List Tree) :
    under name (row ++ more) = under name row ++ under name more := List.flatMap_append

theorem rowUnder_append (place : Place) (row more : List Tree) :
    rowUnder place (row ++ more) = rowUnder place row ++ rowUnder place more := by
  induction place generalizing row more with
  | nil => rfl
  | cons first rest ih => simp only [rowUnder, under_append, ih]

@[simp] theorem rowUnder_nil (place : Place) : rowUnder place [] = [] := by
  induction place with
  | nil => rfl
  | cons first rest ih => simpa only [rowUnder, under_nil] using ih

theorem under_ofText (name : Text) (row : List Tree) :
    under (Path.ofText name) row = inside name row := by
  simp only [under, inside, Path.ofText_inj]

theorem rowUnder_ofText (path : List Text) (row : List Tree) :
    rowUnder (path.map Path.ofText) row = rowAt path row := by
  induction path generalizing row with
  | nil => rfl
  | cons first rest ih => rw [List.map_cons, rowUnder, under_ofText, ih, rowAt]

theorem under_of_not_mem (name : Name) (row : List Tree)
    (absent : ∀ title ∈ row.filterMap dirName?, Path.ofText title ≠ name) : under name row = [] := by
  rw [under, List.flatMap_eq_nil_iff]
  intro t member
  cases t with
  | leaf l => rfl
  | dir other children => exact if_neg (absent other (List.mem_filterMap.mpr ⟨_, member, rfl⟩))

theorem rowUnder_cases (place : Place) (row : List Tree) :
    (∃ path : List Text, place = path.map Path.ofText) ∨ rowUnder place row = [] := by
  induction place generalizing row with
  | nil => exact .inl ⟨[], rfl⟩
  | cons first rest ih =>
    by_cases text : ∃ t, Path.ofText t = first
    · obtain ⟨t, rfl⟩ := text
      rcases ih (under (Path.ofText t) row) with ⟨path, rfl⟩ | nothing
      · exact .inl ⟨t :: path, rfl⟩
      · exact .inr nothing
    · rw [rowUnder, under_of_not_mem first row fun title _ => not_exists.mp text title,
        rowUnder_nil]
      exact .inr rfl

/-- A directory is there just if a leaf is below it. -/
theorem mem_dirName_iff (row : List Tree) (filled : ∀ t ∈ row, Filled t) (path : List Text)
    (name : Text) :
    name ∈ (rowAt path row).filterMap dirName? ↔
      ∃ more l, .leaf l ∈ rowAt (path ++ name :: more) row := by
  constructor
  · intro named
    obtain ⟨d, there, is_dir⟩ := List.mem_filterMap.mp named
    cases d with
    | leaf l => cases is_dir
    | dir other children =>
      cases is_dir
      have filled_dir := filled_rowAt path row filled _ there
      obtain ⟨child, member⟩ :=
        List.exists_mem_of_ne_nil _ ((filled_dir_iff name children).mp filled_dir).1
      obtain ⟨more, l, below⟩ :=
        exists_leaf child (((filled_dir_iff name children).mp filled_dir).2 child member)
      refine ⟨more, l, ?_⟩
      rw [rowAt_append_path]
      apply rowAt_of_mem (name :: more) _ _ there _
      rw [rowAt, inside_dir, if_pos rfl, inside_nil, List.append_nil]
      exact rowAt_of_mem more _ child member _ below
  · rintro ⟨more, l, below⟩
    rw [rowAt_append_path, rowAt] at below
    refine Decidable.byContradiction fun absent => ?_
    rw [inside_of_not_mem name _ absent, rowAt_nil] at below
    cases below

end SmaliReport.Tree
