import SmaliReport.FileSystem.Access

/-!
What lies at each place of a file system, seen without the order of entries. Putting and removing
nodes are described by what they change at which places.
-/

namespace SmaliReport

inductive Kind where
  | file (bytes : List UInt8)
  | link (target : Path)
  | dir
  deriving DecidableEq

namespace Node

def kind : Node → Kind
  | .file bytes => .file bytes
  | .link target => .link target
  | .dir _ => .dir

/-- A name that stands for itself in a path. -/
structure PlainName (name : Name) : Prop where
  nonempty : name ≠ []
  slash : Path.slash ∉ name
  nul : 0 ∉ name
  dot : name ≠ Path.dot
  dots : name ≠ Path.dots

/-- A name that an entry can have. -/
structure ProperName (name : Name) : Prop extends PlainName name where
  short : name.length ≤ 255

/-- Directories and files alone, with the names a file system allows and none of them twice. -/
inductive Regular : Node → Prop where
  | file (bytes : List UInt8) : Regular (.file bytes)
  | dir {entries : List (Name × Node)} :
      (entries.map (·.1)).Nodup → (∀ e ∈ entries, ProperName e.1) → (∀ e ∈ entries, Regular e.2) →
        Regular (.dir entries)

instance (name : Name) : Decidable (ProperName name) :=
  decidable_of_iff
    (name ≠ [] ∧ Path.slash ∉ name ∧ 0 ∉ name ∧ name ≠ Path.dot ∧ name ≠ Path.dots ∧
      name.length ≤ 255)
    ⟨fun ⟨given, slash, nul, dot, dots, short⟩ => ⟨⟨given, slash, nul, dot, dots⟩, short⟩,
      fun proper =>
        ⟨proper.nonempty, proper.slash, proper.nul, proper.dot, proper.dots, proper.short⟩⟩

mutual

def isRegular : Node → Bool
  | .file _ => true
  | .link _ => false
  | .dir entries => (entries.map (·.1)).Nodup && areRegular entries

def areRegular : List (Name × Node) → Bool
  | [] => true
  | (name, node) :: rest => ProperName name && isRegular node && areRegular rest

end

mutual

theorem isRegular_iff : ∀ node : Node, isRegular node = true ↔ node.Regular
  | .file bytes => iff_of_true rfl (.file bytes)
  | .link target => by
    simp only [isRegular, Bool.false_eq_true, false_iff]
    exact nofun
  | .dir entries => by
    simp only [isRegular, Bool.and_eq_true, decide_eq_true_eq, areRegular_iff entries]
    constructor
    · rintro ⟨unique, proper, each⟩
      exact .dir unique proper each
    · intro regular
      cases regular with
      | dir unique proper each => exact ⟨unique, proper, each⟩

theorem areRegular_iff : ∀ entries : List (Name × Node), areRegular entries = true ↔
    (∀ e ∈ entries, ProperName e.1) ∧ ∀ e ∈ entries, e.2.Regular
  | [] => by simp [areRegular]
  | (name, node) :: rest => by
    simp only [areRegular, Bool.and_eq_true, decide_eq_true_eq, isRegular_iff node,
      areRegular_iff rest, List.forall_mem_cons]
    constructor
    · rintro ⟨⟨first, regular⟩, proper, each⟩
      exact ⟨⟨first, proper⟩, regular, each⟩
    · rintro ⟨⟨first, proper⟩, regular, each⟩
      exact ⟨⟨first, regular⟩, proper, each⟩

end

instance (node : Node) : Decidable node.Regular := decidable_of_iff _ (isRegular_iff node)

@[simp] theorem kind_eq_dir_iff (node : Node) :
    node.kind = .dir ↔ ∃ entries, node = .dir entries := by
  cases node <;> simp [kind]

theorem at?_append (node : Node) (place more : Place) :
    node.at? (place ++ more) = (node.at? place).bind (·.at? more) := by
  induction place generalizing node with
  | nil => rfl
  | cons name rest ih =>
    cases node with
    | dir entries =>
      simp only [List.cons_append, at?]
      cases entries.lookup name with
      | none => rfl
      | some inner => exact ih inner
    | file bytes => rfl
    | link target => rfl

theorem at?_child (entries : List (Name × Node)) (name : Name) :
    (Node.dir entries).at? [name] = entries.lookup name := by
  simp only [at?]
  cases entries.lookup name <;> rfl

theorem mem_of_lookup {entries : List (Name × Node)} {name : Name} {node : Node}
    (found : entries.lookup name = some node) : (name, node) ∈ entries := by
  obtain ⟨before, after, rfl, _⟩ := List.lookup_eq_some_iff.mp found
  simp

theorem lookup_of_mem {entries : List (Name × Node)} (unique : (entries.map (·.1)).Nodup)
    {e : Name × Node} (member : e ∈ entries) : entries.lookup e.1 = some e.2 := by
  induction entries with
  | nil => cases member
  | cons first entries ih =>
    rw [List.map_cons, List.nodup_cons] at unique
    rcases List.mem_cons.mp member with rfl | member
    · exact List.lookup_cons_self
    · have apart : (e.1 == first.1) = false := by
        have : e.1 ≠ first.1 := fun same => unique.1 (same ▸ List.mem_map_of_mem member)
        simpa using this
      rw [List.lookup_cons, apart]
      exact ih unique.2 member

theorem Regular.at? {node inner : Node} (regular : node.Regular) (place : Place)
    (found : node.at? place = some inner) : inner.Regular := by
  induction place generalizing node with
  | nil => exact Option.some.inj found ▸ regular
  | cons name rest ih =>
    cases regular with
    | file bytes => cases found
    | dir unique proper each =>
      obtain ⟨next, there, found⟩ := Option.bind_eq_some_iff.mp found
      exact ih (each _ (mem_of_lookup there)) found

theorem lookup_alter_of_ne (name : Name) (other : Path) (change : Option Node → Option Node)
    (entries : List (Name × Node)) (differs : other ≠ name) :
    (alter name change entries).lookup other = entries.lookup other := by
  have apart : (other == name) = false := by simpa using differs
  induction entries with
  | nil => cases h : change none <;> simp [alter, h, List.lookup_cons, apart]
  | cons entry entries ih =>
    obtain ⟨first, node⟩ := entry
    by_cases same : first = name
    · subst same
      cases h : change (some node) <;> simp [alter, h, List.lookup_cons, apart]
    · simp only [alter, if_neg same, List.lookup_cons, ih]

theorem lookup_alter_self (name : Name) (change : Option Node → Option Node)
    (entries : List (Name × Node))
    (settled : (∀ node, entries.lookup name = some node → (change (some node)).isSome) ∨
      (entries.map (·.1)).Nodup) :
    (alter name change entries).lookup name = change (entries.lookup name) := by
  induction entries with
  | nil => cases h : change none <;> simp [alter, h]
  | cons entry entries ih =>
    obtain ⟨first, node⟩ := entry
    by_cases same : first = name
    · subst same
      cases h : change (some node) with
      | some new => simp [alter, h]
      | none =>
        have unique : first ∉ entries.map (·.1) := by
          rcases settled with always | unique
          · have := always node List.lookup_cons_self
            simp [h] at this
          · exact (List.nodup_cons.mp unique).1
        have gone : entries.lookup first = none := by
          rw [List.lookup_eq_none_iff]
          intro entry member
          have : first ≠ entry.1 := fun equal => unique (equal ▸ List.mem_map_of_mem member)
          simpa using this
        simp [alter, h, gone]
    · have apart : (name == first) = false := by simpa using Ne.symm same
      simp only [List.lookup_cons, apart] at settled
      have rest := settled.imp id fun unique => (List.nodup_cons.mp unique).2
      simp only [alter, if_neg same, List.lookup_cons, apart, ih rest]

theorem Regular.unique {entries : List (Name × Node)} (regular : (Node.dir entries).Regular) :
    (entries.map (·.1)).Nodup := by
  cases regular with
  | dir unique _ _ => exact unique

theorem Regular.named {entries : List (Name × Node)} (regular : (Node.dir entries).Regular) :
    ∀ e ∈ entries, ProperName e.1 := by
  cases regular with
  | dir unique proper each => exact proper

theorem Regular.each {entries : List (Name × Node)} (regular : (Node.dir entries).Regular) :
    ∀ e ∈ entries, e.2.Regular := by
  cases regular with
  | dir _ _ each => exact each

def inDir (change : List (Name × Node) → List (Name × Node)) : Option Node → Option Node
  | some (.dir inner) => some (.dir (change inner))
  | other => other

/-- A change in a directory shows at its place and below, and nowhere else. -/
theorem kind_alterAt (change : Option Node → Option Node) (above : Place) (name : Name)
    (entries inner : List (Name × Node)) (q : Place)
    (there : (Node.dir entries).at? above = some (.dir inner))
    (settled : (∀ old, (change old).isSome) ∨ (Node.dir entries).Regular) :
    ((Node.dir (alterAt change (above ++ [name]) entries)).at? q).map kind =
      if above ++ [name] <+: q then
        ((change (inner.lookup name)).bind (·.at? (q.drop (above.length + 1)))).map kind
      else ((Node.dir entries).at? q).map kind := by
  induction above generalizing entries q with
  | nil =>
    obtain rfl : entries = inner := by simpa [at?] using there
    have looked := lookup_alter_self name change entries
      (settled.imp (fun always node _ => always (some node)) Regular.unique)
    cases q with
    | nil => simp [at?, kind]
    | cons first q =>
      by_cases same : first = name
      · subst same
        simp [alterAt, at?, looked]
      · have apart : ¬[name] <+: first :: q := by simp [List.cons_prefix_cons, Ne.symm same]
        have other := lookup_alter_of_ne name first change entries same
        simp [alterAt, at?, other, apart]
  | cons next above ih =>
    obtain ⟨node, found, deep⟩ := Option.bind_eq_some_iff.mp there
    obtain ⟨deeper, rfl⟩ : ∃ deeper, node = .dir deeper := by
      cases above <;> cases node <;> simp_all [at?]
    have settled : (∀ old, (change old).isSome) ∨ (Node.dir deeper).Regular :=
      settled.imp id fun regular => regular.at? [next] (by rw [at?_child, found])
    cases q with
    | nil => simp [at?, kind]
    | cons first q =>
      have unfolded : alterAt change (next :: above ++ [name]) entries =
          alter next (inDir (alterAt change (above ++ [name]))) entries := by
        cases above <;> rfl
      by_cases same : first = next
      · subst same
        have looked := lookup_alter_self first (inDir (alterAt change (above ++ [name]))) entries
          (.inl fun node hit => by rw [found] at hit; cases hit; rfl)
        rw [unfolded]
        simp only [at?, looked, found, inDir, Option.bind_some, List.cons_append,
          List.cons_prefix_cons, true_and, List.length_cons, List.drop_succ_cons]
        exact ih deeper q deep settled
      · have other :=
          lookup_alter_of_ne next first (inDir (alterAt change (above ++ [name]))) entries same
        have apart : ¬next :: above ++ [name] <+: first :: q := by
          simp [List.cons_prefix_cons, Ne.symm same]
        rw [unfolded, if_neg apart]
        simp only [at?, other]

end Node

namespace FileSystem

def kind? (fs : FileSystem) (place : Place) : Option Kind := (fs.node? place).map Node.kind

@[simp] theorem kind?_nil (fs : FileSystem) : fs.kind? [] = some .dir := rfl

theorem kind?_eq_dir_iff (fs : FileSystem) (place : Place) :
    fs.kind? place = some .dir ↔ ∃ entries, fs.node? place = some (.dir entries) := by
  unfold kind?
  cases fs.node? place <;> simp

theorem kind?_eq_file_iff (fs : FileSystem) (place : Place) (bytes : List UInt8) :
    fs.kind? place = some (.file bytes) ↔ fs.node? place = some (.file bytes) := by
  unfold kind?
  cases fs.node? place with
  | none => simp
  | some node => cases node <;> simp [Node.kind]

theorem kind?_eq_none_iff (fs : FileSystem) (place : Place) :
    fs.kind? place = none ↔ fs.node? place = none := by
  unfold kind?
  cases fs.node? place <;> simp

theorem kind?_below (fs : FileSystem) (place more : Place) (deeper : more ≠ [])
    (differs : fs.kind? place ≠ some .dir) : fs.kind? (place ++ more) = none := by
  rw [kind?_eq_none_iff, node?, Node.at?_append]
  cases there : (Node.dir fs.entries).at? place with
  | none => rfl
  | some node =>
    cases more with
    | nil => exact absurd rfl deeper
    | cons name rest =>
      cases node with
      | dir entries => exact absurd ((kind?_eq_dir_iff fs place).mpr ⟨entries, there⟩) differs
      | file bytes => rfl
      | link target => rfl

theorem kind?_above (fs : FileSystem) (place more : Place) (deeper : more ≠ [])
    (there : fs.kind? (place ++ more) ≠ none) : fs.kind? place = some .dir :=
  Decidable.byContradiction fun differs => there (kind?_below fs place more deeper differs)

theorem kind?_dropLast (fs : FileSystem) (place : Place) (there : fs.kind? place = some .dir) :
    fs.kind? place.dropLast = some .dir := by
  by_cases root : place = []
  · rw [root]
    rfl
  · rw [← List.dropLast_concat_getLast root] at there
    exact kind?_above fs place.dropLast [place.getLast root] (by simp) (by simp [there])

theorem kind?_put (fs : FileSystem) (above : Place) (name : Name) (node : Node) (q : Place)
    (there : fs.kind? above = some .dir) :
    (fs.put (above ++ [name]) node).kind? q =
      if above ++ [name] <+: q then (node.at? (q.drop (above.length + 1))).map Node.kind
      else fs.kind? q := by
  obtain ⟨inner, found⟩ := (kind?_eq_dir_iff fs above).mp there
  exact Node.kind_alterAt (fun _ => some node) above name fs.entries inner q found
    (.inl fun _ => rfl)

theorem kind?_remove (fs : FileSystem) (above : Place) (name : Name) (q : Place)
    (regular : (Node.dir fs.entries).Regular) (there : fs.kind? above = some .dir) :
    (fs.remove (above ++ [name])).kind? q =
      if above ++ [name] <+: q then none else fs.kind? q := by
  obtain ⟨inner, found⟩ := (kind?_eq_dir_iff fs above).mp there
  exact Node.kind_alterAt (fun _ => none) above name fs.entries inner q found (.inr regular)

/-- Nothing is below a new file or directory, so that its own place is all that changes. -/
theorem kind?_put_bare (fs : FileSystem) (above : Place) (name : Name) (node : Node) (q : Place)
    (there : fs.kind? above = some .dir) (bare : ∀ first rest, node.at? (first :: rest) = none)
    (free : fs.kind? (above ++ [name]) ≠ some .dir) :
    (fs.put (above ++ [name]) node).kind? q =
      if q = above ++ [name] then some node.kind else fs.kind? q := by
  rw [kind?_put fs above name node q there]
  by_cases own : q = above ++ [name]
  · subst own
    simp [Node.at?]
  · rw [if_neg own]
    split
    · rename_i below
      obtain ⟨more, rfl⟩ := below
      cases more with
      | nil => simp at own
      | cons first rest =>
        have nothing := kind?_below fs (above ++ [name]) (first :: rest) (by simp) free
        have length : above.length + 1 = (above ++ [name]).length := by simp
        rw [nothing, length, List.drop_left, bare]
        rfl
    · rfl

end FileSystem

end SmaliReport
