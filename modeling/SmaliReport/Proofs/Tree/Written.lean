import SmaliReport.Tree.Write
import SmaliReport.Proofs.FileSystem.Change
import SmaliReport.Proofs.FileSystem.Running
import SmaliReport.Proofs.Tree.Paths

/-!
What writing a tree leaves behind. Every leaf and every directory of the tree leaves a mark at its
place; a place with several marks shows the last one, and a run that succeeds has put marks of
one sort only at each place.
-/

namespace SmaliReport

theorem run_change_cases {activity : String} {path : Path}
    {edit : FileSystem → Except FileError FileSystem} {fs later : FileSystem}
    {result : Except Failure Unit} (ran : (change activity path edit).run fs = (result, later)) :
    (result = .ok () ∧ edit fs = .ok later) ∨
      (later = fs ∧ ∃ cause, result = .error ⟨activity.toList ++ ' ' :: path.text, cause⟩) := by
  simp only [change, run_bind, run_get, run_lift] at ran
  cases edited : edit fs with
  | error cause =>
    rw [edited] at ran
    cases ran
    exact .inr ⟨rfl, cause, rfl⟩
  | ok mid =>
    rw [edited] at ran
    cases ran
    exact .inl ⟨rfl, rfl⟩

theorem runs_change_iff (activity : String) (path : Path)
    (edit : FileSystem → Except FileError FileSystem) (fs later : FileSystem) {done : Unit} :
    Runs (change activity path edit) fs done later ↔ edit fs = .ok later := by
  constructor
  · intro ran
    rcases run_change_cases ran with ⟨_, edited⟩ | ⟨_, _, failed⟩
    · exact edited
    · cases failed
  · intro edited
    simp only [Runs, change, run_bind, run_get, run_lift, edited]
    rfl

theorem run_changes_cases {activity : String} {path : Path} {program : FileM FileError Unit}
    {fs later : FileSystem} {result : Except Failure Unit}
    (ran : (changes activity path program).run fs = (result, later)) :
    (result = .ok () ∧ Runs program fs () later) ∨
      ∃ cause, program.run fs = (.error cause, later) ∧
        result = .error ⟨activity.toList ++ ' ' :: path.text, cause⟩ := by
  rw [changes, run_adapt] at ran
  cases ended : program.run fs with
  | mk inner mid =>
    rw [ended] at ran
    cases inner with
    | error cause =>
      cases ran
      exact .inr ⟨cause, rfl, rfl⟩
    | ok done =>
      cases ran
      exact .inl ⟨rfl, ended⟩

def Leaf.file (l : Leaf) : Text := l.name ++ ".txt".toList

section File

variable (l : Leaf)

theorem Leaf.file_given : Path.ofText l.file ≠ [] := by
  intro empty
  have nothing : l.file = [] := (Path.ofText_inj l.file []).mp empty
  simp [file] at nothing

theorem Leaf.slash_file (slash : '/' ∉ l.name) : Path.slash ∉ Path.ofText l.file := by
  rw [Path.slash_mem_ofText, file, List.mem_append, not_or]
  exact ⟨slash, by decide⟩

theorem Leaf.file_ne_dots : Path.ofText l.file ≠ Path.dot ∧ Path.ofText l.file ≠ Path.dots := by
  have last : (Path.ofText l.file).getLast? = some 0x74 := by
    rw [file, Path.ofText_append, List.getLast?_append]
    rfl
  constructor
  · intro same
    rw [same] at last
    cases last
  · intro same
    rw [same] at last
    cases last

end File

namespace Tree

open FileSystem

/-- What a tree puts at a name in its directory. -/
def mark (name : Name) : Tree → Option Kind
  | .leaf l => if Path.ofText l.file = name then some (.file (Text.toUtf8 l.report)) else none
  | .dir other _ => if Path.ofText other = name then some .dir else none

/-- What the trees in a directory put at a name below it, in the order of writing. -/
def marks (ts : List Tree) (dirs : List Name) (name : Name) : List Kind :=
  (rowUnder dirs ts).filterMap (mark name)

def Alike : Kind → Option Kind → Prop
  | .dir, kind => kind = some .dir
  | .file _, kind => ∃ bytes, kind = some (.file bytes)
  | .link _, _ => False

/-- The trees were written into the directory `place`. -/
structure Wrote (fs later : FileSystem) (place : Place) (ts : List Tree) : Prop where
  plain : Plain later
  keeps : Keeps fs later
  inside : ∀ dirs name, later.kind? (place ++ dirs ++ [name]) =
    (marks ts dirs name).getLast?.or (fs.kind? (place ++ dirs ++ [name]))
  outside : ∀ q, (∀ dirs name, q ≠ place ++ dirs ++ [name]) → later.kind? q = fs.kind? q
  alike : ∀ dirs name, ∀ kind ∈ marks ts dirs name,
    Alike kind (later.kind? (place ++ dirs ++ [name]))

variable {fs mid later : FileSystem} {place : Place}

theorem marks_cons (t : Tree) (ts : List Tree) (dirs : List Name) (name : Name) :
    marks (t :: ts) dirs name = marks [t] dirs name ++ marks ts dirs name := by
  rw [marks, ← List.singleton_append, rowUnder_append, List.filterMap_append]
  rfl

theorem alike_keeps (keeps : Keeps fs later) {q : Place} {kind : Kind}
    (before : Alike kind (fs.kind? q)) : Alike kind (later.kind? q) := by
  cases kind with
  | dir => exact keeps.dirs q before
  | file bytes =>
    obtain ⟨bytes, file⟩ := before
    exact keeps.files q bytes file
  | link target => exact before.elim

theorem Wrote.nil (plain : Plain fs) (place : Place) : Wrote fs fs place [] where
  plain := plain
  keeps := .refl fs
  inside dirs name := by simp [marks]
  outside _ _ := rfl
  alike dirs name kind member := by simp [marks] at member

theorem Wrote.cons {t : Tree} {ts : List Tree} (first : Wrote fs mid place [t])
    (rest : Wrote mid later place ts) : Wrote fs later place (t :: ts) where
  plain := rest.plain
  keeps := first.keeps.trans rest.keeps
  inside dirs name := by
    rw [rest.inside, first.inside, marks_cons t ts, List.getLast?_append]
    cases (marks ts dirs name).getLast? <;> rfl
  outside q beside := (rest.outside q beside).trans (first.outside q beside)
  alike dirs name kind member := by
    rw [marks_cons, List.mem_append] at member
    rcases member with early | late
    · exact alike_keeps rest.keeps (first.alike dirs name kind early)
    · exact rest.alike dirs name kind late

theorem marks_leaf_nil (l : Leaf) (name : Name) :
    marks [.leaf l] [] name =
      if Path.ofText l.file = name then [.file (Text.toUtf8 l.report)] else [] := by
  by_cases same : Path.ofText l.file = name <;> simp [marks, rowUnder, mark, same]

theorem marks_leaf_cons (l : Leaf) (first : Name) (dirs : List Name) (name : Name) :
    marks [.leaf l] (first :: dirs) name = [] := by
  simp [marks, rowUnder]

theorem marks_dir_nil (other : Text) (children : List Tree) (name : Name) :
    marks [.dir other children] [] name = if Path.ofText other = name then [.dir] else [] := by
  by_cases same : Path.ofText other = name <;> simp [marks, rowUnder, mark, same]

theorem marks_dir_cons (other : Text) (children : List Tree) (first : Name) (dirs : List Name)
    (name : Name) :
    marks [.dir other children] (first :: dirs) name =
      if Path.ofText other = first then marks children dirs name else [] := by
  by_cases same : Path.ofText other = first <;> simp [marks, rowUnder, same]

theorem Wrote.leaf {l : Leaf} (plain : Plain fs)
    (sets : Sets fs later (place ++ [Path.ofText l.file]) (.file (Text.toUtf8 l.report)))
    (free : fs.kind? (place ++ [Path.ofText l.file]) ≠ some .dir) :
    Wrote fs later place [.leaf l] where
  plain := sets.plain (by simp) plain
  keeps := sets.keeps_file free
  inside dirs name := by
    rw [sets.kinds]
    cases dirs with
    | nil =>
      rw [marks_leaf_nil, List.append_nil]
      by_cases same : Path.ofText l.file = name
      · simp [same]
      · simp [same, Ne.symm same]
    | cons first dirs => simp [marks_leaf_cons]
  outside q beside := by
    rw [sets.kinds, if_neg]
    simpa using beside [] (Path.ofText l.file)
  alike dirs name kind member := by
    cases dirs with
    | nil =>
      rw [marks_leaf_nil] at member
      split at member
      · rename_i same
        obtain rfl := List.mem_singleton.mp member
        exact ⟨_, by rw [sets.kinds, same, List.append_nil, if_pos rfl]⟩
      · cases member
    | cons first dirs =>
      rw [marks_leaf_cons] at member
      cases member

theorem Wrote.dir {title : Text} {name : Name} {children : List Tree}
    (encoded : Path.ofText title = name) (made : Sets fs mid (place ++ [name]) .dir)
    (free : fs.kind? (place ++ [name]) = none)
    (wrote : Wrote mid later (place ++ [name]) children) :
    Wrote fs later place [.dir title children] where
  plain := wrote.plain
  keeps := (made.keeps_dir free).trans wrote.keeps
  inside dirs last := by
    cases dirs with
    | nil =>
      have beside : ∀ dirs other, place ++ [last] ≠ place ++ [name] ++ dirs ++ [other] := by
        intro dirs other equal
        have lengths := congrArg List.length equal
        simp only [List.length_append, List.length_cons, List.length_nil] at lengths
        omega
      rw [marks_dir_nil, encoded, List.append_nil, wrote.outside _ beside, made.kinds]
      by_cases same : name = last
      · simp [same]
      · simp [same, Ne.symm same]
    | cons first dirs =>
      rw [marks_dir_cons, encoded]
      by_cases same : name = first
      · subst same
        have here : place ++ name :: dirs ++ [last] = place ++ [name] ++ dirs ++ [last] := by simp
        have below : ¬place ++ [name] ++ dirs ++ [last] = place ++ [name] := by simp
        rw [here, if_pos rfl, wrote.inside, made.kinds, if_neg below]
      · have beside : ∀ deeper other,
            place ++ first :: dirs ++ [last] ≠ place ++ [name] ++ deeper ++ [other] := by
          intro deeper other equal
          simp [Ne.symm same] at equal
        have apart : ¬place ++ first :: dirs ++ [last] = place ++ [name] := by simp
        rw [if_neg same, wrote.outside _ beside, made.kinds, if_neg apart]
        rfl
  outside q beside := by
    have here := beside [] name
    rw [List.append_nil] at here
    rw [wrote.outside q fun dirs last => ?_, made.kinds, if_neg here]
    simpa using beside (name :: dirs) last
  alike dirs last kind member := by
    cases dirs with
    | nil =>
      rw [marks_dir_nil, encoded] at member
      split at member
      · rename_i same
        obtain rfl := List.mem_singleton.mp member
        apply wrote.keeps.dirs _
        rw [made.kinds, same, List.append_nil, if_pos rfl]
      · cases member
    | cons first dirs =>
      rw [marks_dir_cons, encoded] at member
      split at member
      · rename_i same
        have here : place ++ first :: dirs ++ [last] = place ++ [name] ++ dirs ++ [last] := by
          simp [same]
        rw [here]
        exact wrote.alike dirs last kind member
      · cases member

theorem reaches_join {path : Path} {name : Name} {q : Place} (named : name ≠ [])
    (slash : Path.slash ∉ name) (reaches : fs.Reaches path place)
    (reaches_name : fs.Reaches (Path.join path name) q) : step fs.kind? place name = .ok q := by
  obtain ⟨above, again, taken⟩ := reaches_name.above reaches.given named slash
  rwa [reaches.unique again]

theorem makeDir_below {path : Path} {name : Name} (named : Node.PlainName name) (plain : Plain fs)
    (reaches : fs.Reaches path place) (made : fs.makeDir (Path.join path name) = .ok later) :
    fs.Reaches (Path.join path name) (place ++ [name]) ∧ fs.kind? (place ++ [name]) = none ∧
      Sets fs later (place ++ [name]) .dir := by
  obtain ⟨q, reaches_dir, missing, sets⟩ :=
    makeDir_sets plain (.inl (Path.join_bare path name named.nonempty named.slash)) made
  have taken := reaches_join named.nonempty named.slash reaches reaches_dir
  obtain rfl : q = place ++ [name] := step_named named.dot named.dots taken
  exact ⟨reaches_dir, missing, sets⟩

theorem write_below_sets {path : Path} {l : Leaf} {bytes : List UInt8} (slash : '/' ∉ l.name)
    (plain : Plain fs) (reaches : fs.Reaches path place)
    (written : fs.write (Path.join path (Path.ofText l.file)) bytes = .ok later) :
    fs.kind? (place ++ [Path.ofText l.file]) ≠ some .dir ∧
      Sets fs later (place ++ [Path.ofText l.file]) (.file bytes) := by
  obtain ⟨q, reaches_file, free, sets⟩ := write_sets plain written
  have taken := reaches_join l.file_given (l.slash_file slash) reaches reaches_file
  obtain rfl : q = place ++ [Path.ofText l.file] :=
    step_named l.file_ne_dots.1 l.file_ne_dots.2 taken
  exact ⟨free, sets⟩

mutual

theorem write_wrote (parent : Path) (place : Place) :
    ∀ (t : Tree) (fs later : FileSystem), Proper t → Plain fs → fs.Reaches parent place →
      Runs (write parent t) fs () later → Wrote fs later place [t]
  | .leaf l, fs, later, proper, plain, reaches, ran => by
    cases proper with
    | leaf slash =>
      obtain ⟨free, sets⟩ :=
        write_below_sets slash plain reaches ((runs_change_iff _ _ _ fs later).mp ran)
      exact .leaf plain sets free
  | .dir name children, fs, later, proper, plain, reaches, ran => by
    cases proper with
    | dir named each =>
      obtain ⟨_, mid, made, ran⟩ := (runs_bind_iff _ _ fs later ()).mp ran
      obtain ⟨reaches_dir, missing, sets⟩ :=
        makeDir_below named plain reaches ((runs_change_iff _ _ _ fs mid).mp made)
      exact .dir rfl sets missing (writeAll_wrote (Path.join parent (Path.ofText name))
        (place ++ [Path.ofText name]) children mid later each (sets.plain (by simp) plain)
        ((sets.keeps_dir missing).reaches reaches_dir) ran)

theorem writeAll_wrote (parent : Path) (place : Place) :
    ∀ (ts : List Tree) (fs later : FileSystem), (∀ t ∈ ts, Proper t) → Plain fs →
      fs.Reaches parent place → Runs (writeAll parent ts) fs () later → Wrote fs later place ts
  | [], fs, later, _, plain, _, ran => by
    obtain ⟨_, rfl⟩ := (runs_pure_iff () () fs later).mp ran
    exact .nil plain place
  | t :: ts, fs, later, proper, plain, reaches, ran => by
    obtain ⟨_, mid, first, rest⟩ := (runs_bind_iff _ _ fs later ()).mp ran
    -- the rest starts where `parent` still leads to `place`, as nothing was taken away
    have wrote :=
      write_wrote parent place t fs mid (proper t List.mem_cons_self) plain reaches first
    exact wrote.cons (writeAll_wrote parent place ts mid later
      (fun t member => proper t (List.mem_cons_of_mem _ member)) wrote.plain
      (wrote.keeps.reaches reaches) rest)

end

/-- The leaves in a directory that are written to this name. -/
def leavesAt (ts : List Tree) (dirs : List Name) (name : Name) : List Leaf :=
  ((rowUnder dirs ts).filterMap leaf?).filter (Path.ofText ·.file = name)

theorem mem_marks_file (ts : List Tree) (dirs : List Name) (name : Name) (l : Leaf)
    (member : l ∈ leavesAt ts dirs name) :
    .file (Text.toUtf8 l.report) ∈ marks ts dirs name := by
  obtain ⟨leaf, named⟩ := List.mem_filter.mp member
  obtain ⟨t, there, is_leaf⟩ := List.mem_filterMap.mp leaf
  cases t with
  | leaf l =>
    cases is_leaf
    exact List.mem_filterMap.mpr ⟨.leaf l, there, if_pos (by simpa using named)⟩
  | dir other children => cases is_leaf

theorem mem_marks_dir (ts : List Tree) (dirs : List Name) (name : Name) :
    .dir ∈ marks ts dirs name ↔ name ∈ ((rowUnder dirs ts).filterMap dirName?).map Path.ofText := by
  simp only [marks, List.mem_filterMap, List.mem_map]
  constructor
  · rintro ⟨t, there, marked⟩
    cases t with
    | leaf l =>
      simp only [mark] at marked
      split at marked <;> cases marked
    | dir other children =>
      simp only [mark] at marked
      split at marked
      · rename_i same
        exact ⟨other, ⟨_, there, rfl⟩, same⟩
      · cases marked
  · rintro ⟨other, ⟨t, there, named⟩, same⟩
    refine ⟨t, there, ?_⟩
    cases t with
    | leaf l => cases named
    | dir title children =>
      cases named
      exact if_pos same

theorem marks_eq_files (ts : List Tree) (dirs : List Name) (name : Name)
    (files : .dir ∉ marks ts dirs name) :
    marks ts dirs name = (leavesAt ts dirs name).map fun l => .file (Text.toUtf8 l.report) := by
  unfold marks at files ⊢
  unfold leavesAt
  generalize rowUnder dirs ts = row at files ⊢
  induction row with
  | nil => rfl
  | cons t row ih =>
    cases t with
    | leaf l =>
      by_cases same : Path.ofText l.file = name
      · simp only [List.filterMap_cons, mark, if_pos same, List.mem_cons, not_or] at files
        simp [mark, leaf?, same, ih files.2]
      · simp only [List.filterMap_cons, mark, if_neg same] at files
        simp [mark, leaf?, same, ih files]
    | dir other children =>
      by_cases same : Path.ofText other = name
      · simp [mark, same] at files
      · simp only [List.filterMap_cons, mark, if_neg same] at files
        simp [List.filterMap_cons, mark, leaf?, same, ih files]

section Empty

variable {ts : List Tree} (wrote : Wrote fs later place ts) (dirs : List Name) (name : Name)
  (empty : fs.kind? (place ++ dirs ++ [name]) = none)

include wrote empty

theorem Wrote.dir_iff : later.kind? (place ++ dirs ++ [name]) = some .dir ↔
    name ∈ ((rowUnder dirs ts).filterMap dirName?).map Path.ofText := by
  rw [← mem_marks_dir]
  constructor
  · intro dir
    rw [wrote.inside, empty, Option.or_none] at dir
    exact List.mem_of_getLast? dir
  · intro marked
    exact wrote.alike dirs name .dir marked

theorem Wrote.file_iff (bytes : List UInt8) :
    later.kind? (place ++ dirs ++ [name]) = some (.file bytes) ↔
      ∃ l, (leavesAt ts dirs name).getLast? = some l ∧ bytes = Text.toUtf8 l.report := by
  have forward {bytes : List UInt8}
      (file : later.kind? (place ++ dirs ++ [name]) = some (.file bytes)) :
      ∃ l, (leavesAt ts dirs name).getLast? = some l ∧ bytes = Text.toUtf8 l.report := by
    have files : .dir ∉ marks ts dirs name := by
      intro marked
      have dir := wrote.alike dirs name .dir marked
      rw [Alike, file] at dir
      cases dir
    rw [wrote.inside, empty, Option.or_none, marks_eq_files ts dirs name files,
      List.getLast?_map] at file
    obtain ⟨l, last, same⟩ := Option.map_eq_some_iff.mp file
    exact ⟨l, last, (Kind.file.inj same).symm⟩
  constructor
  · exact forward
  · rintro ⟨l, last, rfl⟩
    obtain ⟨bytes, file⟩ := wrote.alike dirs name _
      (mem_marks_file ts dirs name l (List.mem_of_getLast? last))
    obtain ⟨other, same, rfl⟩ := forward file
    rw [last] at same
    cases same
    exact file

end Empty

end Tree

end SmaliReport
