import SmaliReport.Proofs.FileSystem.Content
import SmaliReport.Proofs.Tree.Written

/-!
Which trees can be written. A directory needs a place where nothing is, and a report one where no
directory is. In which order a tree puts its directories and reports makes no difference to whether
all of them find such a place.
-/

namespace SmaliReport.Tree

open FileSystem

/-- Can something of this kind be put where this is? -/
def Takes (before : Option Kind) : Kind → Prop
  | .dir => before = none
  | .file _ => before ≠ some .dir
  | .link _ => False

/-- These can be put at one place, one after the other. -/
def Puts : Option Kind → List Kind → Prop
  | _, [] => True
  | before, kind :: rest => Takes before kind ∧ Puts (some kind) rest

theorem puts_append (before : Option Kind) (kinds more : List Kind) :
    Puts before (kinds ++ more) ↔ Puts before kinds ∧ Puts (kinds.getLast?.or before) more := by
  induction kinds generalizing before with
  | nil => simp [Puts]
  | cons kind rest ih =>
    have last : (kind :: rest).getLast?.or before = rest.getLast?.or (some kind) := by
      rw [List.getLast?_cons]
      cases rest.getLast? <;> rfl
    rw [List.cons_append, Puts, Puts, ih, last, and_assoc]

/-- A directory is alone at its place. -/
theorem puts_dir {before : Option Kind} {kinds : List Kind} (puts : Puts before kinds)
    (dir : .dir ∈ kinds) : kinds = [.dir] := by
  cases kinds with
  | nil => cases dir
  | cons first rest =>
    obtain ⟨_, later⟩ := puts
    have behind : .dir ∉ rest := by
      intro member
      obtain ⟨front, back, rfl⟩ := List.append_of_mem member
      rw [puts_append, Puts, Takes] at later
      have free := later.2.1
      cases last : front.getLast? <;> rw [last] at free <;> cases free
    rcases List.mem_cons.mp dir with rfl | repeated
    · cases rest with
      | nil => rfl
      | cons second rest =>
        cases second with
        | dir => exact absurd List.mem_cons_self behind
        | file bytes => exact absurd rfl later.1
        | link target => exact later.1.elim
    · exact absurd repeated behind

theorem puts_files {before : Option Kind} {kinds : List Kind} (dir : before ≠ some .dir)
    (files : ∀ kind ∈ kinds, ∃ bytes, kind = .file bytes) : Puts before kinds := by
  induction kinds generalizing before with
  | nil => trivial
  | cons kind rest ih =>
    obtain ⟨⟨bytes, rfl⟩, later⟩ := List.forall_mem_cons.mp files
    exact ⟨dir, ih (by simp) later⟩

/-- All that can be put at a place is a directory where nothing is, or files where no directory
is. -/
theorem puts_iff (before : Option Kind) (kinds : List Kind) :
    Puts before kinds ↔ kinds = [] ∨ (kinds = [.dir] ∧ before = none) ∨
      (before ≠ some .dir ∧ ∀ kind ∈ kinds, ∃ bytes, kind = .file bytes) := by
  constructor
  · intro puts
    by_cases dir : Kind.dir ∈ kinds
    · obtain rfl := puts_dir puts dir
      exact .inr (.inl ⟨rfl, puts.1⟩)
    · cases kinds with
      | nil => exact .inl rfl
      | cons first rest =>
        have file {before : Option Kind} {kind : Kind} (takes : Takes before kind)
            (other : kind ≠ .dir) : ∃ bytes, kind = .file bytes := by
          cases kind with
          | file bytes => exact ⟨bytes, rfl⟩
          | dir => exact absurd rfl other
          | link target => exact takes.elim
        have each : ∀ kind ∈ first :: rest, ∃ bytes, kind = .file bytes := by
          intro kind member
          obtain ⟨front, back, split⟩ := List.append_of_mem member
          rw [split, puts_append] at puts
          exact file puts.2.1 fun same => dir (same ▸ member)
        obtain ⟨bytes, rfl⟩ := each first List.mem_cons_self
        exact .inr (.inr ⟨puts.1, each⟩)
  · rintro (rfl | ⟨rfl, rfl⟩ | ⟨free, files⟩)
    · trivial
    · exact ⟨rfl, trivial⟩
    · exact puts_files free files

theorem puts_perm {before : Option Kind} {kinds others : List Kind} (perm : kinds.Perm others) :
    Puts before kinds ↔ Puts before others := by
  simp only [puts_iff, perm.mem_iff]
  have nil : kinds = [] ↔ others = [] := by
    rw [← List.length_eq_zero_iff, perm.length_eq, List.length_eq_zero_iff]
  have single : kinds = [.dir] ↔ others = [.dir] := by
    constructor
    · rintro rfl
      exact List.perm_singleton.mp perm.symm
    · rintro rfl
      exact List.perm_singleton.mp perm
  rw [nil, single]

/-- The name is one a file system takes, at the end of a path that is not too long. -/
structure Named (parent : Path) (dirs : List Name) (name : Name) : Prop where
  proper : Node.ProperName name
  fits : Path.fits ((dirs ++ [name]).foldl Path.join parent)

/-- All that the trees put into the directory can be put there. -/
structure Writable (fs : FileSystem) (parent : Path) (place : Place) (ts : List Tree) : Prop where
  named : ∀ dirs name, marks ts dirs name ≠ [] → Named parent dirs name
  puts : ∀ dirs name, Puts (fs.kind? (place ++ dirs ++ [name])) (marks ts dirs name)

variable {fs mid later : FileSystem} {place : Place}

section Access

variable {parent : Path} {name : Name} (plain : Plain fs) (reaches : fs.Reaches parent place)
  (dir : fs.kind? place = some .dir) (given : name ≠ []) (slash : Path.slash ∉ name)
  (dot : name ≠ Path.dot) (dots : name ≠ Path.dots)

include reaches dir given slash dot dots

theorem reaches_join_iff :
    (∃ q, fs.Reaches (Path.join parent name) q) ↔ Named parent [] name := by
  constructor
  · rintro ⟨q, leads⟩
    have taken := reaches_join given slash reaches leads
    rcases step_ok_cases taken with ⟨same, _⟩ | ⟨same, _⟩ | ⟨_, _, short, _⟩
    · exact absurd same dot
    · exact absurd same dots
    · obtain ⟨front, _, shape⟩ := Path.join_shape parent name slash
      have nul : 0 ∉ name := by
        intro member
        exact leads.nul (shape ▸ List.mem_append_right front member)
      exact ⟨⟨⟨given, slash, nul, dot, dots⟩, short⟩, leads.fits⟩
  · intro named
    exact ⟨_, reaches.below named.proper dir named.fits⟩

include plain

theorem makeDir_ok_iff : (∃ later, fs.makeDir (Path.join parent name) = .ok later) ↔
    Named parent [] name ∧ fs.kind? (place ++ [name]) = none := by
  have tidy : Path.Tidy (Path.join parent name) := .inl (Path.join_bare parent name given slash)
  rw [← reaches_join_iff reaches dir given slash dot dots]
  constructor
  · rintro ⟨later, made⟩
    obtain ⟨q, leads, missing, _⟩ := makeDir_sets plain tidy made
    obtain rfl := step_named dot dots (reaches_join given slash reaches leads)
    exact ⟨⟨_, leads⟩, missing⟩
  · rintro ⟨⟨q, leads⟩, missing⟩
    obtain rfl := step_named dot dots (reaches_join given slash reaches leads)
    exact ⟨_, makeDir_free plain tidy leads missing⟩

theorem write_ok_iff (bytes : List UInt8) :
    (∃ later, fs.write (Path.join parent name) bytes = .ok later) ↔
      Named parent [] name ∧ fs.kind? (place ++ [name]) ≠ some .dir := by
  rw [← reaches_join_iff reaches dir given slash dot dots]
  constructor
  · rintro ⟨later, written⟩
    obtain ⟨q, leads, free, _⟩ := write_sets plain written
    obtain rfl := step_named dot dots (reaches_join given slash reaches leads)
    exact ⟨⟨_, leads⟩, free⟩
  · rintro ⟨⟨q, leads⟩, free⟩
    obtain rfl := step_named dot dots (reaches_join given slash reaches leads)
    have located := (locate_ok_iff plain true _ ⟨_, 40⟩).mpr ⟨leads, rfl⟩
    simp only [FileSystem.write, located, bind, Except.bind]
    split
    · rename_i entries there
      exact absurd ((kind?_eq_dir_iff fs _).mpr ⟨entries, there⟩) free
    · exact ⟨_, rfl⟩

end Access

theorem writable_nil (parent : Path) : Writable fs parent place [] where
  named dirs name has_marks := absurd (by simp [marks]) has_marks
  puts dirs name := by simp [marks, Puts]

theorem writable_leaf_iff (parent : Path) (l : Leaf) : Writable fs parent place [.leaf l] ↔
    Named parent [] (Path.ofText l.file) ∧
      fs.kind? (place ++ [Path.ofText l.file]) ≠ some .dir := by
  constructor
  · intro writable
    have named := writable.named [] (Path.ofText l.file)
    have puts := writable.puts [] (Path.ofText l.file)
    rw [marks_leaf_nil, if_pos rfl] at named puts
    rw [List.append_nil] at puts
    exact ⟨named (by simp), puts.1⟩
  · rintro ⟨named, free⟩
    have marked (dirs : List Name) (name : Name) : marks [.leaf l] dirs name = [] ∨
        (dirs = [] ∧ name = Path.ofText l.file ∧ marks [.leaf l] dirs name =
          [.file (Text.toUtf8 l.report)]) := by
      cases dirs with
      | nil =>
        rw [marks_leaf_nil]
        by_cases same : Path.ofText l.file = name
        · exact .inr ⟨rfl, same.symm, if_pos same⟩
        · exact .inl (if_neg same)
      | cons first dirs => exact .inl (marks_leaf_cons l first dirs name)
    refine ⟨fun dirs name has_marks => ?_, fun dirs name => ?_⟩
    · rcases marked dirs name with unmarked | ⟨rfl, rfl, _⟩
      · exact absurd unmarked has_marks
      · exact named
    · rcases marked dirs name with unmarked | ⟨rfl, rfl, same⟩
      · rw [unmarked]
        trivial
      · rw [same, List.append_nil]
        exact ⟨free, trivial⟩

theorem writable_dir_iff (parent : Path) {title : Text} {name : Name}
    (encoded : Path.ofText title = name) (children : List Tree) :
    Writable fs parent place [.dir title children] ↔
      (Named parent [] name ∧ fs.kind? (place ++ [name]) = none) ∧
        Writable fs (Path.join parent name) (place ++ [name]) children := by
  have deeper (dirs : List Name) (last : Name) :
      place ++ name :: dirs ++ [last] = place ++ [name] ++ dirs ++ [last] := by simp
  constructor
  · intro writable
    have named := writable.named [] name
    have puts := writable.puts [] name
    rw [marks_dir_nil, if_pos encoded] at named puts
    rw [List.append_nil] at puts
    refine ⟨⟨named (by simp), puts.1⟩, fun dirs last has_marks => ?_, fun dirs last => ?_⟩
    · have named := writable.named (name :: dirs) last
      rw [marks_dir_cons, if_pos encoded] at named
      obtain ⟨proper, fits⟩ := named has_marks
      exact ⟨proper, fits⟩
    · have puts := writable.puts (name :: dirs) last
      rwa [marks_dir_cons, if_pos encoded, deeper] at puts
  · rintro ⟨⟨here, missing⟩, writable⟩
    refine ⟨fun dirs last has_marks => ?_, fun dirs last => ?_⟩
    · cases dirs with
      | nil =>
        rw [marks_dir_nil, encoded] at has_marks
        split at has_marks
        · rename_i same
          exact same ▸ here
        · exact absurd rfl has_marks
      | cons first dirs =>
        rw [marks_dir_cons, encoded] at has_marks
        split at has_marks
        · rename_i same
          obtain ⟨proper, fits⟩ := writable.named dirs last has_marks
          exact ⟨proper, by rw [← same]; exact fits⟩
        · exact absurd rfl has_marks
    · cases dirs with
      | nil =>
        rw [marks_dir_nil, encoded, List.append_nil]
        split
        · rename_i same
          exact ⟨same ▸ missing, trivial⟩
        · trivial
      | cons first dirs =>
        rw [marks_dir_cons, encoded]
        split
        · rename_i same
          rw [← same, deeper]
          exact writable.puts dirs last
        · trivial

theorem writable_cons_iff {parent : Path} {t : Tree} {ts : List Tree}
    (wrote : Wrote fs mid place [t]) : Writable fs parent place (t :: ts) ↔
      Writable fs parent place [t] ∧ Writable mid parent place ts := by
  have kinds (dirs : List Name) (name : Name) :
      Puts (fs.kind? (place ++ dirs ++ [name])) (marks (t :: ts) dirs name) ↔
        Puts (fs.kind? (place ++ dirs ++ [name])) (marks [t] dirs name) ∧
          Puts (mid.kind? (place ++ dirs ++ [name])) (marks ts dirs name) := by
    rw [marks_cons, puts_append, wrote.inside]
  constructor
  · intro writable
    refine ⟨⟨fun dirs name has_marks => ?_, fun dirs name => ((kinds dirs name).mp ?_).1⟩,
      fun dirs name has_marks => ?_, fun dirs name => ((kinds dirs name).mp ?_).2⟩
    · exact writable.named dirs name (by simp [marks_cons t ts, has_marks])
    · exact writable.puts dirs name
    · exact writable.named dirs name (by simp [marks_cons t ts, has_marks])
    · exact writable.puts dirs name
  · rintro ⟨first, rest⟩
    refine ⟨fun dirs name has_marks => ?_, fun dirs name => ?_⟩
    · rw [marks_cons] at has_marks
      by_cases early : marks [t] dirs name = []
      · exact rest.named dirs name (by simpa [early] using has_marks)
      · exact first.named dirs name early
    · exact (kinds dirs name).mpr ⟨first.puts dirs name, rest.puts dirs name⟩

/-- What was made above the trees' places makes no difference to them. -/
theorem writable_congr {parent : Path} {ts : List Tree}
    (kinds : ∀ dirs name, mid.kind? (place ++ dirs ++ [name]) = fs.kind? (place ++ dirs ++ [name])) :
    Writable mid parent place ts ↔ Writable fs parent place ts := by
  constructor
  · rintro ⟨named, puts⟩
    exact ⟨named, fun dirs name => kinds dirs name ▸ puts dirs name⟩
  · rintro ⟨named, puts⟩
    exact ⟨named, fun dirs name => (kinds dirs name).symm ▸ puts dirs name⟩

theorem writable_made {parent : Path} {name : Name} {children : List Tree}
    (sets : Sets fs mid (place ++ [name]) .dir) :
    Writable mid parent (place ++ [name]) children ↔
      Writable fs parent (place ++ [name]) children := by
  refine writable_congr fun dirs last => ?_
  rw [sets.kinds, if_neg (by simp)]

mutual

theorem runs_write_iff (parent : Path) (place : Place) :
    ∀ (t : Tree) (fs : FileSystem), Proper t → Plain fs → fs.Reaches parent place →
      fs.kind? place = some .dir →
      ((∃ later, Runs (write parent t) fs () later) ↔ Writable fs parent place [t])
  | .leaf l, fs, proper, plain, reaches, opened => by
    cases proper with
    | leaf slash =>
      rw [writable_leaf_iff, ← write_ok_iff plain reaches opened l.file_given
        (l.slash_file slash) l.file_ne_dots.1 l.file_ne_dots.2 (Text.toUtf8 l.report)]
      exact exists_congr fun later => runs_change_iff _ _ _ fs later
  | .dir title children, fs, proper, plain, reaches, opened => by
    cases proper with
    | dir named each =>
      generalize encoded : Path.ofText title = name at named
      rw [writable_dir_iff parent encoded, ← makeDir_ok_iff plain reaches opened named.nonempty
        named.slash named.dot named.dots, write, encoded]
      have below {mid : FileSystem} (made : fs.makeDir (Path.join parent name) = .ok mid) :
          (∃ later, Runs (writeAll (Path.join parent name) children) mid () later) ↔
            Writable fs (Path.join parent name) (place ++ [name]) children := by
        obtain ⟨leads, missing, sets⟩ := makeDir_below named plain reaches made
        rw [runs_writeAll_iff (Path.join parent name) (place ++ [name]) children mid each
          (sets.plain (by simp) plain) ((sets.keeps_dir missing).reaches leads)
          (by rw [sets.kinds, if_pos rfl]), writable_made sets]
      constructor
      · rintro ⟨later, ran⟩
        obtain ⟨_, mid, made, ran⟩ := (runs_bind_iff _ _ fs later ()).mp ran
        rw [runs_change_iff] at made
        exact ⟨⟨mid, made⟩, (below made).mp ⟨later, ran⟩⟩
      · rintro ⟨⟨mid, made⟩, writable⟩
        obtain ⟨later, ran⟩ := (below made).mpr writable
        exact ⟨later, (runs_bind_iff _ _ fs later ()).mpr
          ⟨(), mid, (runs_change_iff _ _ _ fs mid).mpr made, ran⟩⟩

/-- A run succeeds just if all can be put in, which does not depend on the order. -/
theorem runs_writeAll_iff (parent : Path) (place : Place) :
    ∀ (ts : List Tree) (fs : FileSystem), (∀ t ∈ ts, Proper t) → Plain fs →
      fs.Reaches parent place → fs.kind? place = some .dir →
      ((∃ later, Runs (writeAll parent ts) fs () later) ↔ Writable fs parent place ts)
  | [], fs, _, _, _, _ =>
    iff_of_true ⟨fs, (runs_pure_iff () () fs fs).mpr ⟨rfl, rfl⟩⟩ (writable_nil parent)
  | t :: ts, fs, proper, plain, reaches, opened => by
    rw [List.forall_mem_cons] at proper
    have first := runs_write_iff parent place t fs proper.1 plain reaches opened
    have rest {mid : FileSystem} (wrote : Wrote fs mid place [t]) :=
      runs_writeAll_iff parent place ts mid proper.2 wrote.plain (wrote.keeps.reaches reaches)
        (wrote.keeps.dirs place opened)
    constructor
    · rintro ⟨later, ran⟩
      obtain ⟨_, mid, early, late⟩ := (runs_bind_iff _ _ fs later ()).mp ran
      have wrote := write_wrote parent place t fs mid proper.1 plain reaches early
      exact (writable_cons_iff wrote).mpr ⟨first.mp ⟨mid, early⟩, (rest wrote).mp ⟨later, late⟩⟩
    · intro writable
      -- the first tree can be written if only its own marks are looked at
      have alone : Writable fs parent place [t] := by
        refine ⟨fun dirs name has_marks => ?_, fun dirs name => ?_⟩
        · exact writable.named dirs name (by simp [marks_cons t ts, has_marks])
        · have puts := writable.puts dirs name
          rw [marks_cons, puts_append] at puts
          exact puts.1
      obtain ⟨mid, early⟩ := first.mpr alone
      have wrote := write_wrote parent place t fs mid proper.1 plain reaches early
      obtain ⟨later, late⟩ := (rest wrote).mpr ((writable_cons_iff wrote).mp writable).2
      exact ⟨later, (runs_bind_iff _ _ fs later ()).mpr ⟨(), mid, early, late⟩⟩

end

end SmaliReport.Tree
