import SmaliReport.Tree.Read
import SmaliReport.Proofs.FileSystem.Kinds
import SmaliReport.Proofs.FileSystem.Names
import SmaliReport.Proofs.FileSystem.Texts

/-!
The files whose reports a walk collects, said by their place below the directory that is walked. A
walk meets all of them but those below a directory that is named like a smali file.
-/

namespace SmaliReport

def smaliFile (name : Name) : Name := name ++ Path.ofText ".smali".toList

/-- The leaf of what was found by `path` as the file `name.smali`. -/
def Leaf.found? (path : Path) (name : Name) : Option Node → Option Leaf
  | some (.file bytes) =>
    if name ≠ [] ∧ Path.fits path then Leaf.ofSmali? (Path.text name) (SourceFile.text ⟨bytes⟩)
    else none
  | _ => none

/-- The leaf of the file `name.smali` below a node that is walked by `path`: the file must be
there, the path it is reached by must not be too long, and its header must be readable. -/
def Leaf.accepted? (path : Path) (node : Node) (dirs : List Name) (name : Name) : Option Leaf :=
  Leaf.found? ((dirs ++ [smaliFile name]).foldl Path.join path) name
    (node.at? (dirs ++ [smaliFile name]))

/-- The leaf of the accepted file that a walk meets: it does not go into directories that have the
extension of smali files. -/
def Leaf.met? (path : Path) (node : Node) (dirs : List Name) (name : Name) : Option Leaf :=
  if dirs.any Tree.isSmali then none else Leaf.accepted? path node dirs name

/-- No directory below the node has the extension of smali files. -/
def Node.Walkable (node : Node) : Prop :=
  ∀ above name entries, node.at? (above ++ [name]) = some (.dir entries) → Tree.isSmali name = false

mutual

/-- The names of all entries at any depth. -/
def Node.names : Node → List Name
  | .dir entries => namesIn entries
  | _ => []

def Node.namesIn : List (Name × Node) → List Name
  | [] => []
  | (name, node) :: rest => name :: names node ++ namesIn rest

end

/-- All names below the node are texts. -/
def Node.Textual (node : Node) : Prop := ∀ name ∈ node.names, Path.ofText (Path.text name) = name

instance (node : Node) : Decidable node.Textual :=
  inferInstanceAs (Decidable (∀ name ∈ node.names, Path.ofText (Path.text name) = name))

mutual

def Node.isWalkable : Node → Bool
  | .dir entries => areWalkable entries
  | _ => true

def Node.areWalkable : List (Name × Node) → Bool
  | [] => true
  | (name, node) :: rest =>
    !(Tree.isSmali name && node.kind = .dir) && isWalkable node && areWalkable rest

end

mutual

theorem Node.walkable_of_check : ∀ node : Node, node.isWalkable = true → node.Walkable
  | .file bytes, _ => by
    intro above name entries found
    cases above <;> cases found
  | .link target, _ => by
    intro above name entries found
    cases above <;> cases found
  | .dir entries, checked => by
    intro above name inner found
    have each := Node.each_of_check entries checked
    cases above with
    | nil =>
      rw [List.nil_append, Node.at?_child] at found
      exact (each _ (Node.mem_of_lookup found)).1 rfl
    | cons first above =>
      obtain ⟨next, there, found⟩ := Option.bind_eq_some_iff.mp found
      exact (each _ (Node.mem_of_lookup there)).2 above name inner found

theorem Node.each_of_check : ∀ entries : List (Name × Node), Node.areWalkable entries = true →
    ∀ e ∈ entries, (e.2.kind = .dir → Tree.isSmali e.1 = false) ∧ e.2.Walkable
  | [], _ => List.forall_mem_nil _
  | (name, node) :: rest, checked => by
    simp only [Node.areWalkable, Bool.and_eq_true] at checked
    obtain ⟨⟨first, inner⟩, later⟩ := checked
    refine List.forall_mem_cons.mpr ⟨⟨?_, node.walkable_of_check inner⟩, each_of_check rest later⟩
    intro dir
    simpa [dir] using first

end

theorem Path.fits_foldl (path : Path) (names : List Name)
    (slash : ∀ name ∈ names, Path.slash ∉ name)
    (long : Path.fits (names.foldl Path.join path)) : Path.fits path := by
  induction names generalizing path with
  | nil => exact long
  | cons name rest ih =>
    rw [List.forall_mem_cons] at slash
    exact Path.fits_join path name slash.1 (ih (Path.join path name) slash.2 long)

theorem Node.Regular.proper {node inner : Node} (regular : node.Regular) (place : Place)
    (found : node.at? place = some inner) : ∀ name ∈ place, Node.ProperName name := by
  induction place generalizing node with
  | nil => exact List.forall_mem_nil _
  | cons name rest ih =>
    cases regular with
    | file bytes => cases found
    | dir unique proper each =>
      obtain ⟨next, there, found⟩ := Option.bind_eq_some_iff.mp found
      have member := Node.mem_of_lookup there
      exact List.forall_mem_cons.mpr ⟨proper _ member, ih (each _ member) found⟩

theorem Node.mem_namesIn {entries : List (Name × Node)} {e : Name × Node} (member : e ∈ entries) :
    e.1 ∈ namesIn entries ∧ ∀ name ∈ e.2.names, name ∈ namesIn entries := by
  induction entries with
  | nil => cases member
  | cons entry rest ih =>
    obtain ⟨first, node⟩ := entry
    rw [namesIn]
    rcases List.mem_cons.mp member with rfl | later
    · exact ⟨List.mem_cons_self, fun name inner =>
        List.mem_cons_of_mem _ (List.mem_append_left _ inner)⟩
    · obtain ⟨own, inner⟩ := ih later
      exact ⟨List.mem_cons_of_mem _ (List.mem_append_right _ own), fun name below =>
        List.mem_cons_of_mem _ (List.mem_append_right _ (inner name below))⟩

theorem Node.names_at? {node inner : Node} {place : Place} (found : node.at? place = some inner) :
    (∀ name ∈ place, name ∈ node.names) ∧ ∀ name ∈ inner.names, name ∈ node.names := by
  induction place generalizing node with
  | nil =>
    cases found
    exact ⟨List.forall_mem_nil _, fun _ => id⟩
  | cons first rest ih =>
    cases node with
    | file bytes => cases found
    | link target => cases found
    | dir entries =>
      obtain ⟨next, there, found⟩ := Option.bind_eq_some_iff.mp found
      obtain ⟨own, below⟩ := mem_namesIn (mem_of_lookup there)
      obtain ⟨way, inside⟩ := ih found
      exact ⟨List.forall_mem_cons.mpr ⟨own, fun name member => below name (way name member)⟩,
        fun name member => below name (inside name member)⟩

theorem Node.Textual.at? {node inner : Node} (textual : node.Textual) {place : Place}
    (found : node.at? place = some inner) :
    ∀ name ∈ place, Path.ofText (Path.text name) = name :=
  fun name member => textual name ((names_at? found).1 name member)

theorem Node.Textual.inner {node inner : Node} (textual : node.Textual) {place : Place}
    (found : node.at? place = some inner) : inner.Textual :=
  fun name member => textual name ((names_at? found).2 name member)

theorem Leaf.name_ofSmali {name smali : Text} {l : Leaf}
    (read : Leaf.ofSmali? name smali = some l) : l.name = name := by
  simp only [Leaf.ofSmali?, Option.bind_eq_bind, Option.bind_eq_some_iff] at read
  obtain ⟨header, _, description, _, same⟩ := read
  cases same
  rfl

namespace Tree

theorem nameOf_smaliFile (name : Name) : Leaf.nameOf (smaliFile name) = Path.text name := by
  have text : Path.text (smaliFile name) = Path.text name ++ ".smali".toList :=
    Path.text_append name _
  have found : ('.' :: rootName).isSuffixOf? (Path.text (smaliFile name)) = some (Path.text name) :=
    List.isSuffixOf?_eq_some_iff_append_eq.mpr text.symm
  rw [Leaf.nameOf, found, Option.getD_some]

theorem smaliFile_injective : Function.Injective smaliFile := List.append_left_injective _

/-- A name has the extension just if it is the extension behind something else. -/
theorem isSmali_iff (file : Name) :
    isSmali file = true ↔ ∃ name, name ≠ [] ∧ file = smaliFile name := by
  have ending : Path.dot ++ Path.ofText rootName = Path.ofText ".smali".toList := by rfl
  unfold isSmali Path.hasExtension
  rw [ending]
  constructor
  · intro smali
    cases found : (Path.ofText ".smali".toList).isSuffixOf? file with
    | none =>
      rw [found] at smali
      cases smali
    | some name =>
      rw [found] at smali
      have whole : smaliFile name = file := List.isSuffixOf?_eq_some_iff_append_eq.mp found
      exact ⟨name, by simpa using smali, whole.symm⟩
  · rintro ⟨name, given, rfl⟩
    have found : (Path.ofText ".smali".toList).isSuffixOf? (smaliFile name) = some name :=
      List.isSuffixOf?_eq_some_iff_append_eq.mpr rfl
    rw [found]
    simpa using given

/-- Whether a name has the extension is seen from its text. -/
theorem isSmali_shown (file : Name) : isSmali (Path.ofText (Path.text file)) = isSmali file := by
  rw [Bool.eq_iff_iff, isSmali_iff, isSmali_iff]
  constructor
  · rintro ⟨stem, given, same⟩
    have shown : Path.text file = Path.text stem ++ ".smali".toList := by
      rw [← Path.text_append, ← smaliFile, ← same, Path.text_ofText]
    obtain ⟨front, rfl, text⟩ := Path.text_eq_append (by decide) shown
    refine ⟨front, fun empty => given ?_, rfl⟩
    rwa [← Path.text_eq_nil_iff, ← text, Path.text_eq_nil_iff]
  · rintro ⟨stem, given, rfl⟩
    refine ⟨Path.ofText (Path.text stem), mt (Path.shown_eq_nil_iff stem).mp given, ?_⟩
    rw [smaliFile, smaliFile, Path.text_append, Path.ofText_append]

theorem accepted_file (path : Path) (bytes : List UInt8) (dirs : List Name) (name : Name) :
    Leaf.accepted? path (.file bytes) dirs name = none := by
  cases dirs <;> rfl

theorem accepted_long (path : Path) (node : Node) (regular : node.Regular) (dirs : List Name)
    (name : Name) (long : Path.fits path = false) : Leaf.accepted? path node dirs name = none := by
  unfold Leaf.accepted?
  cases found : node.at? (dirs ++ [smaliFile name]) with
  | none => rfl
  | some inner =>
    have slash : ∀ part ∈ dirs ++ [smaliFile name], Path.slash ∉ part := fun part member =>
      (regular.proper _ found part member).slash
    cases inner with
    | file bytes =>
      apply if_neg
      rintro ⟨_, fits⟩
      have := Path.fits_foldl path _ slash fits
      rw [long] at this
      cases this
    | link target => rfl
    | dir entries => rfl

/-- A walk meets a file here if it is there, and one below a directory if it goes into it. -/
theorem met_here (path : Path) (entries : List (Name × Node)) (name : Name) :
    Leaf.met? path (.dir entries) [] name =
      Leaf.found? (Path.join path (smaliFile name)) name (entries.lookup (smaliFile name)) := by
  rw [Leaf.met?, Leaf.accepted?, List.nil_append, Node.at?_child]
  rfl

theorem met_below_iff (path : Path) (entries : List (Name × Node))
    (regular : (Node.dir entries).Regular) (first : Name) (dirs : List Name) (name : Name)
    (l : Leaf) :
    Leaf.met? path (.dir entries) (first :: dirs) name = some l ↔
      isSmali first = false ∧ Path.fits (Path.join path first) ∧ ∃ inner,
        entries.lookup first = some (.dir inner) ∧
          Leaf.met? (Path.join path first) (.dir inner) dirs name = some l := by
  have step : Leaf.accepted? path (.dir entries) (first :: dirs) name =
      (entries.lookup first).bind fun inner =>
        Leaf.accepted? (Path.join path first) inner dirs name := by
    simp only [Leaf.accepted?, List.cons_append, List.foldl_cons, Node.at?]
    cases entries.lookup first <;> rfl
  simp only [Leaf.met?, List.any_cons, step]
  cases there : entries.lookup first with
  | none => simp
  | some inner =>
    cases regular.at? [first] ((Node.at?_child entries first).trans there) with
    | file bytes => simp [accepted_file]
    | dir unique proper each =>
      cases smali : isSmali first with
      | true => simp
      | false =>
        cases fits : Path.fits (Path.join path first) with
        | true => simp
        | false => simp [accepted_long _ _ (.dir unique proper each) dirs name fits]

theorem file_of_met {path : Path} {node : Node} {above : Place} {stem : Name} {l : Leaf}
    (met : Leaf.met? path node above stem = some l) :
    isSmali (smaliFile stem) = true ∧
      ∃ bytes, node.at? (above ++ [smaliFile stem]) = some (.file bytes) := by
  rw [Leaf.met?] at met
  split at met
  · cases met
  · rw [Leaf.accepted?] at met
    cases there : node.at? (above ++ [smaliFile stem]) with
    | none =>
      rw [there] at met
      cases met
    | some inner =>
      rw [there] at met
      cases inner with
      | dir entries => cases met
      | link target => cases met
      | file bytes =>
        simp only [Leaf.found?] at met
        split at met
        · rename_i read
          exact ⟨(isSmali_iff _).mpr ⟨stem, read.1, rfl⟩, bytes, rfl⟩
        · cases met

theorem texts_of_met {path : Path} {node : Node} (textual : node.Textual) {above : Place}
    {stem : Name} (met : Leaf.met? path node above stem ≠ none) :
    (above.map Path.text).map Path.ofText = above ∧ Path.ofText (Path.text stem) = stem := by
  obtain ⟨l, met⟩ := Option.ne_none_iff_exists'.mp met
  obtain ⟨_, bytes, there⟩ := file_of_met met
  have texts := textual.at? there
  constructor
  · rw [List.map_map]
    exact (List.map_congr_left fun name member => texts name (List.mem_append_left _ member)).trans
      (List.map_id above)
  · have whole := texts (smaliFile stem) (List.mem_append_right above List.mem_cons_self)
    rw [smaliFile, Path.text_append, Path.ofText_append] at whole
    exact List.append_cancel_right whole

theorem met_iff (path : Path) (node : Node) (dirs : List Name) (name : Name) (l : Leaf) :
    Leaf.met? path node dirs name = some l ↔
      (∀ dir ∈ dirs, isSmali dir = false) ∧ Leaf.accepted? path node dirs name = some l := by
  rw [Leaf.met?]
  split
  · rename_i skipped
    obtain ⟨dir, member, smali⟩ := List.any_eq_true.mp skipped
    have left : ¬∀ dir ∈ dirs, isSmali dir = false := fun walked => by
      rw [walked dir member] at smali
      cases smali
    simp [left]
  · rename_i walked
    have into : ∀ dir ∈ dirs, isSmali dir = false := by simpa using walked
    exact (and_iff_right into).symm

/-- A walk meets all accepted files if no directory has the extension of smali files. -/
theorem met_walkable (path : Path) (node : Node) (walkable : node.Walkable) (dirs : List Name)
    (name : Name) : Leaf.met? path node dirs name = Leaf.accepted? path node dirs name := by
  ext l
  rw [met_iff]
  refine and_iff_right_of_imp fun accepted dir member => ?_
  obtain ⟨front, back, rfl⟩ := List.append_of_mem member
  have split : front ++ dir :: back ++ [smaliFile name] =
      (front ++ [dir]) ++ (back ++ [smaliFile name]) := by simp
  rw [Leaf.accepted?, split, Node.at?_append] at accepted
  cases there : node.at? (front ++ [dir]) with
  | none =>
    rw [there] at accepted
    cases accepted
  | some inner =>
    rw [there] at accepted
    cases inner with
    | dir entries => exact walkable front dir entries there
    | file bytes => cases back <;> cases accepted
    | link target => cases back <;> cases accepted

end Tree

end SmaliReport
