import SmaliReport.Proofs.FileSystem.Edits
import SmaliReport.Proofs.Tree.Collected
import SmaliReport.Proofs.Tree.Writable

/-!
Writing a tree where one was written before, and reading what it was made of once more. A directory
without smali files adds nothing to the tree that is read of the one it is in, and the reports of a
tree are no smali files.
-/

namespace SmaliReport

open FileSystem

/-- No file below the node has the extension of smali files. -/
def Node.Barren (node : Node) : Prop :=
  ∀ above name bytes, node.at? (above ++ [name]) = some (.file bytes) → Tree.isSmali name = false

theorem Node.barren_file (bytes : List UInt8) : (Node.file bytes).Barren := by
  intro above name other there
  cases above <;> cases there

theorem Node.barren_dir {entries : List (Name × Node)} (each : ∀ e ∈ entries, e.2.Barren)
    (files : ∀ e ∈ entries, e.2.kind ≠ .dir → Tree.isSmali e.1 = false) :
    (Node.dir entries).Barren := by
  intro above name bytes there
  cases above with
  | nil =>
    have member := mem_of_lookup ((at?_child entries name).symm.trans there)
    exact files _ member (by simp [kind])
  | cons first rest =>
    obtain ⟨node, lookup, inner⟩ := Option.bind_eq_some_iff.mp there
    exact each _ (mem_of_lookup lookup) rest name bytes inner

theorem Leaf.isSmali_file (l : Leaf) : Tree.isSmali (Path.ofText l.file) = false := by
  cases smali : Tree.isSmali (Path.ofText l.file) with
  | false => rfl
  | true =>
    obtain ⟨stem, _, same⟩ := (Tree.isSmali_iff _).mp smali
    have last := congrArg List.getLast? same
    rw [smaliFile, Leaf.file, Path.ofText_append, List.getLast?_append,
      List.getLast?_append] at last
    cases last

namespace Tree

section Read

variable (linked : Place → Path → Name → Option Tree)

theorem ofEntries_barren (place : Place) (path : Path) (entries : List (Name × Node))
    (regular : (Node.dir entries).Regular) (barren : (Node.dir entries).Barren) :
    ofEntries linked place path entries = [] := by
  have sound : ∀ t ∈ ofEntries linked place path entries, Filled t ∧ Proper t := by
    cases regular with
    | dir _ proper each => exact sound_ofEntries linked place path entries proper each
  have dirs := dirs_of_filled _ fun t member => (sound t member).1
  refine (eq_nil_iff_leaves dirs).mpr fun dirs name => ?_
  refine List.eq_nil_iff_forall_not_mem.mpr fun l leaf => ?_
  obtain ⟨above, stem, _, _, met⟩ :=
    (mem_leavesNamed_iff linked place path entries regular dirs name l).mp leaf
  obtain ⟨smali, bytes, there⟩ := file_of_met met
  rw [barren above (smaliFile stem) bytes there] at smali
  cases smali

theorem ofNode_barren (place : Place) (path : Path) (name : Name) (node : Node)
    (regular : node.Regular)
    (plain_name : isSmali name = false) (barren : node.Barren) :
    ofNode? linked place path name node = none := by
  cases regular with
  | file bytes => simp [ofNode?, plain_name]
  | dir unique proper each =>
    rename_i entries
    have nothing := ofEntries_barren linked (place ++ [name]) path entries
      (.dir unique proper each) barren
    simp [ofNode?, nothing, dir?]

/-- An entry that nothing is read of may be left out. -/
theorem ofEntries_besides (place : Place) (path : Path) (name : Name) (entries : List (Name × Node))
    (nothing : ∀ node, (name, node) ∈ entries →
      ofNode? linked place (Path.join path name) name node = none) :
    ofEntries linked place path (entries.filter (·.1 ≠ name)) =
      ofEntries linked place path entries := by
  induction entries with
  | nil => rfl
  | cons entry rest ih =>
    obtain ⟨first, node⟩ := entry
    have later := ih fun node member => nothing node (List.mem_cons_of_mem _ member)
    by_cases same : first = name
    · subst same
      rw [List.filter_cons_of_neg (by simp), later, ofEntries, nothing node List.mem_cons_self]
      rfl
    · rw [List.filter_cons_of_pos (by simpa using same), ofEntries, ofEntries, later]

end Read

section Write

variable {fs mid later : FileSystem}

theorem written_put (plain : Plain fs) {path : Path} {place : Place} {bytes : List UInt8}
    (reaches : fs.Reaches path place) (written : fs.write path bytes = .ok later) :
    later = fs.put place (.file bytes) := by
  have located := (locate_ok_iff plain true path ⟨place, 40⟩).mpr ⟨reaches, rfl⟩
  simp only [FileSystem.write, located, bind, Except.bind] at written
  split at written
  · cases written
  · exact (Except.ok.inj written).symm

mutual

/-- All that a tree changes lies below the directory that it is written into. -/
theorem write_edits (parent : Path) (place : Place) : ∀ (t : Tree) (fs later : FileSystem),
    Proper t → Plain fs → fs.Reaches parent place → fs.kind? place = some .dir →
      Runs (write parent t) fs () later → Edits (place <+: ·) fs later
  | .leaf l, fs, later, proper, plain, reaches, opened, ran => by
    cases proper with
    | leaf slash =>
      have written := (runs_change_iff _ _ _ fs later).mp ran
      have file := l.slash_file slash
      obtain ⟨named, free⟩ := (write_ok_iff plain reaches opened l.file_given file
        l.file_ne_dots.1 l.file_ne_dots.2 _).mp ⟨later, written⟩
      rw [written_put plain (reaches.below named.proper opened named.fits) written]
      exact Edits.refl.put named.proper (.file _) free (List.prefix_append place _)
  | .dir title children, fs, later, proper, plain, reaches, opened, ran => by
    cases proper with
    | dir named each =>
      obtain ⟨_, mid, made, ran⟩ := (runs_bind_iff _ _ fs later ()).mp ran
      rw [runs_change_iff] at made
      generalize Path.ofText title = name at named made ran
      obtain ⟨leads, missing, sets⟩ := makeDir_below named plain reaches made
      have first : Edits (place <+: ·) fs mid := by
        refine (makeDir_edits plain made).mono fun q new => ?_
        rw [sets.kinds] at new
        split at new
        · rename_i same
          exact same ▸ List.prefix_append place [name]
        · rw [new.1] at new
          cases new.2
      have rest := writeAll_edits (Path.join parent name) (place ++ [name]) children mid later each
        (sets.plain (by simp) plain) ((sets.keeps_dir missing).reaches leads)
        (by rw [sets.kinds, if_pos rfl]) ran
      exact first.trans (rest.mono fun q inner => (List.prefix_append place [name]).trans inner)

theorem writeAll_edits (parent : Path) (place : Place) :
    ∀ (ts : List Tree) (fs later : FileSystem), (∀ t ∈ ts, Proper t) → Plain fs →
      fs.Reaches parent place → fs.kind? place = some .dir →
        Runs (writeAll parent ts) fs () later → Edits (place <+: ·) fs later
  | [], fs, later, _, _, _, _, ran => by
    obtain ⟨_, rfl⟩ := (runs_pure_iff () () fs later).mp ran
    exact .refl
  | t :: ts, fs, later, proper, plain, reaches, opened, ran => by
    rw [List.forall_mem_cons] at proper
    obtain ⟨_, mid, early, late⟩ := (runs_bind_iff _ _ fs later ()).mp ran
    have wrote := write_wrote parent place t fs mid proper.1 plain reaches early
    exact (write_edits parent place t fs mid proper.1 plain reaches opened early).trans
      (writeAll_edits parent place ts mid later proper.2 wrote.plain (wrote.keeps.reaches reaches)
        (wrote.keeps.dirs place opened) late)

end

theorem change_blind (activity : String) (path : Path)
    (edit : FileSystem → Except FileError FileSystem)
    (ends : ∀ fs other, Plain fs → SameContent fs other → SameEnd (edit fs) (edit other)) :
    Blind (change activity path edit) := by
  intro fs other plain same
  have ended := ends fs other plain same
  simp only [change, run_bind, run_get, run_lift]
  generalize edit fs = once at ended
  generalize edit other = again at ended
  cases ended with
  | error e => exact .ended _ plain same
  | ok plain same => exact .ended _ plain same

mutual

theorem write_blind (parent : Path) : ∀ t : Tree, Blind (write parent t)
  | .leaf _ => change_blind _ _ _ fun _ _ plain same => write_same plain same _ _
  | .dir _ children =>
    .bind (change_blind _ _ _ fun _ _ plain same => makeDir_same plain same _)
      fun _ => writeAll_blind _ children

theorem writeAll_blind (parent : Path) : ∀ ts : List Tree, Blind (writeAll parent ts)
  | [] => .pure ()
  | t :: rest => .bind (write_blind parent t) fun _ => writeAll_blind parent rest

end

end Write

/-- Where no file was, the files that are written are reports. -/
theorem Wrote.reports {fs later : FileSystem} {place : Place} {ts : List Tree}
    (wrote : Wrote fs later place ts) (dirs : List Name) (name : Name)
    (before : ∀ bytes, fs.kind? (place ++ dirs ++ [name]) ≠ some (.file bytes)) {bytes : List UInt8}
    (file : later.kind? (place ++ dirs ++ [name]) = some (.file bytes)) : isSmali name = false := by
  rw [wrote.inside] at file
  cases last : (marks ts dirs name).getLast? with
  | none =>
    rw [last] at file
    exact absurd file (before bytes)
  | some kind =>
    rw [last] at file
    cases file
    obtain ⟨t, _, marked⟩ := List.mem_filterMap.mp (List.mem_of_getLast? last)
    cases t with
    | leaf l =>
      simp only [mark] at marked
      split at marked
      · rename_i same
        exact same ▸ l.isSmali_file
      · cases marked
    | dir other children =>
      simp only [mark] at marked
      split at marked <;> cases marked

end Tree

end SmaliReport
