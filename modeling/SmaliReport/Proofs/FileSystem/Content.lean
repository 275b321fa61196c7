import Mathlib.Data.List.Basic
import SmaliReport.Proofs.FileSystem.Directories

/-!
File systems that hold the same things at the same places and may list them in different orders. An
access ends in the same way on both, and a change leaves them holding the same things again.
-/

namespace SmaliReport

namespace Node

/-- Both hold the same things at the same places below them. -/
def Matches (node other : Node) : Prop := ∀ q, (other.at? q).map kind = (node.at? q).map kind

theorem Matches.kind_eq {node other : Node} (alike : Matches node other) :
    other.kind = node.kind := Option.some.inj (alike [])

theorem Matches.at? {node other inner : Node} (alike : Matches node other) (place : Place)
    (there : node.at? place = some inner) :
    ∃ found, other.at? place = some found ∧ Matches inner found := by
  have here := alike place
  rw [there] at here
  obtain ⟨found, there_other, _⟩ := Option.map_eq_some_iff.mp here
  refine ⟨found, there_other, fun q => ?_⟩
  have below := alike (place ++ q)
  rwa [at?_append, at?_append, there, there_other] at below

theorem Matches.symm {node other : Node} (alike : Matches node other) : Matches other node :=
  fun q => (alike q).symm

section Entries

variable {entries others : List (Name × Node)} (alike : Matches (.dir entries) (.dir others))

include alike

theorem Matches.lookup {name : Name} {node : Node} (there : entries.lookup name = some node) :
    ∃ found, others.lookup name = some found ∧ Matches node found := by
  obtain ⟨found, there_other, below⟩ := alike.at? [name] ((at?_child entries name).trans there)
  exact ⟨found, (at?_child others name).symm.trans there_other, below⟩

theorem Matches.names (unique : (entries.map (·.1)).Nodup) (unique_other : (others.map (·.1)).Nodup) :
    (entries.map (·.1)).Perm (others.map (·.1)) := by
  have mem {entries others : List (Name × Node)} (alike : Matches (.dir entries) (.dir others))
      (unique : (entries.map (·.1)).Nodup) (name : Name) (member : name ∈ entries.map (·.1)) :
      name ∈ others.map (·.1) := by
    obtain ⟨e, there, rfl⟩ := List.mem_map.mp member
    obtain ⟨found, there_other, _⟩ := alike.lookup (lookup_of_mem unique there)
    exact List.mem_map.mpr ⟨_, mem_of_lookup there_other, rfl⟩
  exact (List.perm_ext_iff_of_nodup unique unique_other).mpr fun name =>
    ⟨mem alike unique name, mem alike.symm unique_other name⟩

end Entries

theorem Matches.of_perm {entries others : List (Name × Node)} (perm : entries.Perm others)
    (unique : (entries.map (·.1)).Nodup) : Matches (.dir entries) (.dir others) := by
  have unique_other := (perm.map (·.1)).nodup_iff.mp unique
  have same (name : Name) : others.lookup name = entries.lookup name := by
    cases there : entries.lookup name with
    | some node => exact lookup_of_mem unique_other (perm.subset (mem_of_lookup there))
    | none =>
      cases there_other : others.lookup name with
      | none => rfl
      | some node =>
        rw [lookup_of_mem unique (perm.symm.subset (mem_of_lookup there_other))] at there
        cases there
  intro q
  cases q with
  | nil => rfl
  | cons first rest => simp only [Node.at?, same]

end Node

namespace FileSystem

/-- Neither differs from the other but in the order in which entries are listed. -/
structure SameContent (fs other : FileSystem) : Prop where
  here : other.here = fs.here
  kinds : ∀ q, other.kind? q = fs.kind? q

variable {fs other later last mid : FileSystem}

namespace SameContent

theorem symm (same : SameContent fs other) : SameContent other fs :=
  ⟨same.here.symm, fun q => (same.kinds q).symm⟩

theorem kinds_eq (same : SameContent fs other) : other.kind? = fs.kind? := funext same.kinds

theorem plain (same : SameContent fs other) (plain : Plain fs) : Plain other := by
  intro place target
  rw [same.kinds]
  exact plain place target

theorem start (same : SameContent fs other) (path : Path) : other.start path = fs.start path := by
  simp only [FileSystem.start, same.here]

theorem reaches_iff (same : SameContent fs other) (path : Path) (place : Place) :
    other.Reaches path place ↔ fs.Reaches path place := by
  constructor
  · rintro ⟨nul, given, fits, arrives⟩
    rw [same.kinds_eq, same.start] at arrives
    exact ⟨nul, given, fits, arrives⟩
  · rintro ⟨nul, given, fits, arrives⟩
    rw [← same.kinds_eq, ← same.start] at arrives
    exact ⟨nul, given, fits, arrives⟩

/-- The same change at the same place leaves the same content. -/
theorem sets (same : SameContent fs other) {place : Place} {kind : Kind}
    (first : Sets fs later place kind) (second : Sets other last place kind) :
    SameContent later last where
  here := by rw [first.here, second.here, same.here]
  kinds q := by rw [first.kinds, second.kinds, same.kinds]

end SameContent

section Access

variable (plain : Plain fs) (same : SameContent fs other)

include plain same

theorem locate_same (through : Bool) (path : Path) :
    other.locate through path = fs.locate through path := by
  simp only [locate, follow_plain plain, follow_plain (same.plain plain), same.kinds_eq, same.here]

/-- Neither finds anything, for the same cause, or both find the same at the same place. -/
theorem find_same (path : Path) :
    (∃ e, fs.find path = .error e ∧ other.find path = .error e) ∨
      ∃ arrival node found, fs.find path = .ok (arrival, node) ∧
        other.find path = .ok (arrival, found) ∧ node.Matches found := by
  simp only [find, locate_same plain same]
  cases fs.locate true path with
  | error e => exact .inl ⟨e, rfl, rfl⟩
  | ok arrival =>
    have alike : (Node.dir fs.entries).Matches (.dir other.entries) := same.kinds
    simp only [bind, Except.bind]
    cases there : fs.node? arrival.place with
    | none =>
      have missing := same.kinds arrival.place
      rw [(kind?_eq_none_iff fs _).mpr there, kind?_eq_none_iff] at missing
      rw [missing]
      exact .inl ⟨_, rfl, rfl⟩
    | some node =>
      obtain ⟨found, there_other, below⟩ := alike.at? arrival.place there
      have there_other : other.node? arrival.place = some found := there_other
      rw [there_other]
      exact .inr ⟨arrival, node, found, rfl, rfl, below⟩

theorem find_ok_same {path : Path} {arrival : Arrival} {node : Node}
    (found : fs.find path = .ok (arrival, node)) :
    ∃ relisted, other.find path = .ok (arrival, relisted) ∧ node.Matches relisted := by
  rcases find_same plain same path with
    ⟨e, failed, _⟩ | ⟨again, there, relisted, first, second, alike⟩
  · rw [found] at failed
    cases failed
  · cases found.symm.trans first
    exact ⟨relisted, second, alike⟩

theorem has_same (path : Path) : other.has path = fs.has path := by
  unfold has
  rcases find_same plain same path with ⟨e, first, second⟩ | ⟨_, _, _, first, second, _⟩
  · rw [first, second]
  · rw [first, second]
    rfl

theorem isDir_same (path : Path) : other.isDir path = fs.isDir path := by
  rw [Bool.eq_iff_iff, isDir_iff plain, isDir_iff (same.plain plain)]
  simp only [same.reaches_iff, same.kinds]

theorem free_same (path : Path) : other.free path = fs.free path := by
  have missing (q : Place) : (other.node? q).isSome = (fs.node? q).isSome := by
    have kinds := congrArg Option.isSome (same.kinds q)
    simpa only [kind?, Option.isSome_map] using kinds
  simp only [free, locate_same plain same, missing]

end Access

/-- Both fail for the same cause, or leave the same content. -/
inductive SameEnd : Except FileError FileSystem → Except FileError FileSystem → Prop where
  | error (e : FileError) : SameEnd (.error e) (.error e)
  | ok {later last : FileSystem} : Plain later → SameContent later last → SameEnd (.ok later) (.ok last)

theorem makeDir_same (plain : Plain fs) (same : SameContent fs other) (path : Path) :
    SameEnd (fs.makeDir path) (other.makeDir path) := by
  simp only [makeDir, free_same plain same]
  generalize (if (path.reverse.dropWhile (· = Path.slash)).reverse = [] then path
    else (path.reverse.dropWhile (· = Path.slash)).reverse) = used
  cases freed : fs.free used with
  | error e => exact .error e
  | ok place =>
    have sets := free_sets plain freed
    have sets_other := free_sets (same.plain plain) ((free_same plain same used).trans freed)
    exact .ok (sets.plain (by simp) plain) (same.sets sets sets_other)

theorem write_same (plain : Plain fs) (same : SameContent fs other) (path : Path)
    (bytes : List UInt8) : SameEnd (fs.write path bytes) (other.write path bytes) := by
  have ended (used : FileSystem) : used.write path bytes =
      used.locate true path >>= fun arrival =>
        if used.kind? arrival.place = some .dir then .error .isDirectory
        else .ok (used.put arrival.place (.file bytes)) := by
    unfold write
    refine bind_congr fun arrival => ?_
    unfold kind?
    cases used.node? arrival.place with
    | none => rfl
    | some node => cases node <;> rfl
  cases written : fs.write path bytes with
  | error e =>
    rw [ended] at written ⊢
    rw [locate_same plain same]
    cases located : fs.locate true path with
    | error e =>
      rw [located] at written
      cases written
      exact .error e
    | ok arrival =>
      simp only [located, bind, Except.bind, same.kinds] at written ⊢
      split at written
      · rename_i dir
        cases written
        rw [if_pos dir]
        exact .error _
      · cases written
  | ok later =>
    obtain ⟨place, reaches, free, sets⟩ := write_sets plain written
    obtain ⟨last, again⟩ : ∃ last, other.write path bytes = .ok last := by
      have located : fs.locate true path = .ok ⟨place, 40⟩ :=
        (locate_ok_iff plain true path ⟨place, 40⟩).mpr ⟨reaches, rfl⟩
      rw [ended, locate_same plain same, located]
      simp only [bind, Except.bind, same.kinds, if_neg free]
      exact ⟨_, rfl⟩
    obtain ⟨place_other, reaches_other, _, sets_other⟩ := write_sets (same.plain plain) again
    obtain rfl := reaches.unique ((same.reaches_iff path _).mp reaches_other)
    rw [again]
    exact .ok (sets.plain (by simp) plain) (same.sets sets sets_other)

/-- The root stays, even if it is to be removed. -/
theorem kinds_remove (regular : (Node.dir fs.entries).Regular) {place : Place}
    (dir : fs.kind? place = some .dir) (q : Place) :
    (fs.remove place).kind? q = if place ≠ [] ∧ place <+: q then none else fs.kind? q := by
  rcases List.eq_nil_or_concat place with rfl | ⟨above, name, rfl⟩
  · rfl
  · rw [List.concat_eq_append] at dir ⊢
    have above_dir := kind?_above fs above [name] (by simp) (by simp [dir])
    rw [kind?_remove fs above name q regular above_dir]
    simp

theorem removeAll_same (regular : (Node.dir fs.entries).Regular)
    (regular_other : (Node.dir other.entries).Regular) (plain : Plain fs)
    (same : SameContent fs other) (path : Path) :
    SameEnd (fs.removeAll path) (other.removeAll path) := by
  have ended (used : FileSystem) : used.removeAll path =
      used.locate false path >>= fun arrival =>
        match used.kind? arrival.place with
        | none => .error .notFound
        | some (.file _) => .error .notDirectory
        | some _ => .ok (used.remove arrival.place) := by
    unfold removeAll
    refine bind_congr fun arrival => ?_
    unfold kind?
    cases used.node? arrival.place with
    | none => rfl
    | some node => cases node <;> rfl
  rw [ended, ended, locate_same plain same]
  cases fs.locate false path with
  | error e => exact .error e
  | ok arrival =>
    simp only [bind, Except.bind, same.kinds]
    cases kind : fs.kind? arrival.place with
    | none => exact .error _
    | some kind_there =>
      cases kind_there with
      | file bytes => exact .error _
      | link target => exact absurd kind (plain _ target)
      | dir =>
        have kinds := kinds_remove regular kind
        have kinds_other := kinds_remove regular_other ((same.kinds _).trans kind)
        refine .ok (fun q target => ?_) ⟨same.here, fun q => ?_⟩
        · rw [kinds]
          split
          · simp
          · exact plain q target
        · rw [kinds, kinds_other, same.kinds]

/-- The runs end in the same way, with the same content in what they leave. -/
inductive SameRun {ε α : Type} : Except ε α × FileSystem → Except ε α × FileSystem → Prop where
  | ended (result : Except ε α) {later last : FileSystem} :
      Plain later → SameContent later last → SameRun (result, later) (result, last)

/-- The program sees nothing of the order in which entries are listed. -/
def Blind {ε α : Type} (program : FileM ε α) : Prop :=
  ∀ fs other, Plain fs → SameContent fs other → SameRun (program.run fs) (program.run other)

section Blind

variable {ε α β : Type}

theorem Blind.pure (a : α) : Blind (ε := ε) (pure a) := fun _ _ plain same => .ended _ plain same

theorem Blind.bind {program : FileM ε α} {next : α → FileM ε β} (first : Blind program)
    (later : ∀ a, Blind (next a)) : Blind (program >>= next) := by
  intro fs other plain same
  rw [run_bind, run_bind]
  have ended := first fs other plain same
  generalize program.run fs = once at ended
  generalize program.run other = again at ended
  cases ended with
  | ended result plain same =>
    cases result with
    | error e => exact .ended _ plain same
    | ok a => exact later a _ _ plain same

theorem Blind.runs {program : FileM ε α} (blind : Blind program) (plain : Plain fs)
    (same : SameContent fs other) {a : α} (ran : Runs program fs a later) :
    ∃ last, Runs program other a last ∧ SameContent later last := by
  have ended := blind fs other plain same
  rw [ran] at ended
  unfold Runs
  generalize program.run other = again at ended
  cases ended with
  | ended _ _ same => exact ⟨_, rfl, same⟩

end Blind

theorem ensureDir_blind (path : Path) : Blind (ensureDir path) := by
  intro fs other plain same
  have made := makeDir_same plain same path
  simp only [ensureDir, run_bind, run_get]
  generalize fs.makeDir path = once at made
  generalize other.makeDir path = again at made
  cases made with
  | ok plain same => exact .ended _ plain same
  | error e =>
    simp only [run_bind, run_get, isDir_same plain same]
    cases fs.isDir path <;> exact .ended _ plain same

theorem makeDirsUpTo_blind (depth : Nat) (path : Path) : Blind (makeDirsUpTo depth path) := by
  induction depth generalizing path with
  | zero => exact ensureDir_blind path
  | succ depth ih =>
    intro fs other plain same
    have made := makeDir_same plain same path
    simp only [makeDirsUpTo, run_bind _ _ fs, run_bind _ _ other, run_get]
    generalize fs.makeDir path = once at made
    generalize other.makeDir path = again at made
    cases made with
    | ok => exact ensureDir_blind path fs other plain same
    | error e =>
      split
      · exact .ended _ plain same
      · rename_i above _ _
        by_cases root : above = []
        · simp only [root, ne_eq, not_true_eq_false, if_false]
          exact Blind.bind (.pure ()) (fun _ => ensureDir_blind path) fs other plain same
        · simp only [ne_eq, root, not_false_eq_true, if_true]
          exact Blind.bind (ih above) (fun _ => ensureDir_blind path) fs other plain same
      · exact ensureDir_blind path fs other plain same

theorem makeDirs_blind (path : Path) : Blind (makeDirs path) := by
  unfold makeDirs
  split
  · exact .pure ()
  · exact makeDirsUpTo_blind _ path

end FileSystem

end SmaliReport
