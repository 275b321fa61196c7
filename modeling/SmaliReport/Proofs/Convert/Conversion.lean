import SmaliReport.Proofs.Convert.Output
import SmaliReport.Proofs.Tree.Listing

/-!
A conversion from end to end: it finds nothing just if no file below its roots is accepted, and
otherwise its output has the reports of the accepted files and the directories that lead to them.
-/

namespace SmaliReport

open FileSystem

namespace Tree

/-- The last leaf that is written to a place, by the texts that the place is written with. -/
theorem last_leafAt_iff (ts : List Tree) (dirs : List Name) (file : Name) (l : Leaf) :
    (leavesAt ts dirs file).getLast? = some l ↔
      ∃ above stem, dirs = List.map Path.ofText above ∧
        file = Path.ofText stem ++ Path.of ".txt" ∧
          (leavesNamed ts above stem).getLast? = some l := by
  constructor
  · intro last
    have leaf := List.mem_of_getLast? last
    have named : Path.ofText l.file = file := by simpa using (List.mem_filter.mp leaf).2
    rcases rowUnder_cases dirs ts with ⟨above, rfl⟩ | nothing
    · refine ⟨above, l.name, rfl, named.symm.trans (Path.ofText_append _ _), ?_⟩
      rwa [← named, Leaf.file, leavesAt_report] at last
    · simp [leavesAt, nothing] at leaf
  · rintro ⟨above, stem, rfl, rfl, last⟩
    rwa [Path.of, ← Path.ofText_append, leavesAt_report]

theorem rowUnder_top {title : Text} {top : Name} (encoded : Path.ofText title = top)
    (row : List Tree) (dirs : List Name) :
    rowUnder (top :: dirs) [.dir title row] = rowUnder dirs row := by
  simp [rowUnder, encoded]

theorem leavesAt_top {title : Text} {top : Name} (encoded : Path.ofText title = top)
    (row : List Tree) (dirs : List Name) (file : Name) :
    leavesAt [.dir title row] (top :: dirs) file = leavesAt row dirs file := by
  rw [leavesAt, rowUnder_top encoded]
  rfl

theorem Wrote.beside {fs later : FileSystem} {place : Place} {title : Text} {row : List Tree}
    (wrote : Wrote fs later place [.dir title row])
    (empty : ∀ dirs name, fs.kind? (place ++ dirs ++ [name]) = none) {first : Name}
    (other : Path.ofText title ≠ first) (rest : Place) :
    later.kind? (place ++ first :: rest) = none := by
  obtain ⟨dirs, name, split⟩ : ∃ dirs name, first :: rest = dirs ++ [name] :=
    ⟨_, _, (List.dropLast_concat_getLast (List.cons_ne_nil first rest)).symm⟩
  have unmarked : marks [.dir title row] dirs name = [] := by
    cases dirs with
    | nil =>
      obtain ⟨rfl, _⟩ := List.cons.inj split
      rw [marks_dir_nil, if_neg other]
    | cons outer dirs =>
      obtain ⟨rfl, _⟩ := List.cons.inj split
      rw [marks_dir_cons, if_neg other]
  rw [split, ← List.append_assoc, wrote.inside, empty, unmarked]
  rfl

end Tree

namespace Request

/-- What a place in the output has for the accepted files. -/
inductive Expects (r : Request) (fs : FileSystem) : Place → Kind → Prop
  | report {dirs : List Name} {name : Name} {l : Leaf}
      (accepted : r.accepted? fs dirs name = some l) :
      Expects r fs (r.topName fs :: dirs ++ [name ++ Path.of ".txt"])
        (.file (Text.toUtf8 l.report))
  | way {dirs : List Name} {name : Name} {l : Leaf} {place : Place}
      (accepted : r.accepted? fs dirs name = some l) (above : place <+: r.topName fs :: dirs) :
      Expects r fs place .dir

/-- The source is a directory, the request passes its check, all names are texts, and no directory
that is walked has the extension of smali files. -/
structure Ready (r : Request) (fs : FileSystem) : Prop where
  regular : fs.Regular
  textual : (Node.dir fs.entries).Textual
  directory : fs.isDir r.source = true
  checked : r.check fs = .ok ()
  walkable : ∀ root ∈ r.walked fs, root.2.Walkable

variable {fs mid later : FileSystem} (r : Request)

section Row

variable (ready : r.Ready fs)

include ready

theorem accepted_eq_last (dirs : List Text) (name : Text) :
    r.accepted? fs (dirs.map Path.ofText) (Path.ofText name) =
      (Tree.leavesNamed (r.row fs) dirs name).getLast? := by
  rw [accepted?, r.leaves_row, List.filterMap_eq_flatMap_toList]
  refine congrArg List.getLast? (List.flatMap_congr fun root member => ?_)
  rw [Tree.leaves_walk root.1 (r.regular_walked ready.regular root member)
      (r.textual_walked ready.regular ready.textual root member),
    Tree.met_walkable root.1 root.2 (ready.walkable root member)]

theorem texts_of_accepted {dirs : List Name} {name : Name} {l : Leaf}
    (accepted : r.accepted? fs dirs name = some l) :
    ∃ above stem, dirs = List.map Path.ofText above ∧ name = Path.ofText stem := by
  obtain ⟨root, member, found⟩ := List.mem_filterMap.mp (List.mem_of_getLast? accepted)
  rw [← Tree.met_walkable root.1 root.2 (ready.walkable root member)] at found
  obtain ⟨above, stem⟩ := Tree.texts_of_met
    (r.textual_walked ready.regular ready.textual root member) (by rw [found]; exact nofun)
  exact ⟨_, _, above.symm, stem.symm⟩

/-- The last report at a place is that of the accepted file there. -/
theorem last_report_iff (dirs : List Name) (file : Name) (l : Leaf) :
    (Tree.leavesAt (r.row fs) dirs file).getLast? = some l ↔
      ∃ name, file = name ++ Path.of ".txt" ∧ r.accepted? fs dirs name = some l := by
  rw [Tree.last_leafAt_iff]
  constructor
  · rintro ⟨above, stem, rfl, rfl, last⟩
    exact ⟨_, rfl, (r.accepted_eq_last ready above stem).trans last⟩
  · rintro ⟨name, rfl, accepted⟩
    obtain ⟨above, stem, rfl, rfl⟩ := r.texts_of_accepted ready accepted
    exact ⟨above, stem, rfl, rfl, (r.accepted_eq_last ready above stem).symm.trans accepted⟩

theorem exists_accepted_iff (dirs : List Text) (name : Text) :
    (∃ l, r.accepted? fs (dirs.map Path.ofText) (Path.ofText name) = some l) ↔
      Tree.leavesNamed (r.row fs) dirs name ≠ [] := by
  rw [r.accepted_eq_last ready, ← Option.isSome_iff_exists, List.getLast?_isSome]

/-- A directory is made just if an accepted file is somewhere below it. -/
theorem dir_report_iff (dirs : List Name) (name : Name) :
    name ∈ (Tree.dirNames (Tree.rowUnder dirs (r.row fs))).map Path.ofText ↔
      ∃ more last l, r.accepted? fs (dirs ++ name :: more) last = some l := by
  have named := (r.sound_row ready.regular).2
  constructor
  · intro member
    obtain ⟨title, titled, rfl⟩ := List.mem_map.mp member
    rcases Tree.rowUnder_cases dirs (r.row fs) with ⟨above, rfl⟩ | nothing
    · rw [Tree.rowUnder_ofText] at titled
      obtain ⟨more, last, leaf⟩ := (named above title).mp titled
      obtain ⟨l, accepted⟩ := (r.exists_accepted_iff ready _ last).mpr leaf
      rw [List.map_append] at accepted
      exact ⟨_, _, l, accepted⟩
    · simp [nothing] at titled
  · rintro ⟨more, last, l, accepted⟩
    obtain ⟨path, stem, texts, rfl⟩ := r.texts_of_accepted ready accepted
    obtain ⟨above, rest, rfl, rfl, below⟩ := List.map_eq_append_iff.mp texts.symm
    obtain ⟨title, deeper, rfl, rfl, rfl⟩ := List.map_eq_cons_iff.mp below
    rw [Tree.rowUnder_ofText]
    refine List.mem_map_of_mem ((named above title).mpr ⟨deeper, stem, ?_⟩)
    rw [← r.exists_accepted_iff ready]
    exact ⟨l, texts ▸ accepted⟩

theorem row_empty_iff : r.row fs = [] ↔ ∀ dirs name, r.accepted? fs dirs name = none := by
  rw [Tree.eq_nil_iff_leaves (r.sound_row ready.regular).2]
  constructor
  · intro nothing dirs name
    cases accepted : r.accepted? fs dirs name with
    | none => rfl
    | some l =>
      obtain ⟨above, stem, rfl, rfl⟩ := r.texts_of_accepted ready accepted
      exact absurd (nothing above stem) ((r.exists_accepted_iff ready above stem).mp ⟨l, accepted⟩)
  · intro nothing dirs name
    rw [← List.getLast?_eq_none_iff, ← r.accepted_eq_last ready, nothing]

theorem some_accepted (given : r.row fs ≠ []) :
    ∃ dirs name l, r.accepted? fs dirs name = some l := by
  by_contra nothing
  refine given ((r.row_empty_iff ready).mpr fun dirs name => ?_)
  cases accepted : r.accepted? fs dirs name with
  | none => rfl
  | some l => exact absurd ⟨dirs, name, l, accepted⟩ nothing

end Row

theorem expects_dir_iff (rel : Place) :
    r.Expects fs (r.topName fs :: rel) .dir ↔
      ∃ more name l, r.accepted? fs (rel ++ more) name = some l := by
  constructor
  · intro expects
    cases expects with
    | way accepted above =>
      obtain ⟨_, more, rfl⟩ := List.cons_prefix_cons.mp above
      exact ⟨more, _, _, accepted⟩
  · rintro ⟨more, name, l, accepted⟩
    exact .way accepted (List.cons_prefix_cons.mpr ⟨rfl, List.prefix_append rel more⟩)

theorem expects_file_iff (dirs : List Name) (file : Name) (bytes : List UInt8) :
    r.Expects fs (r.topName fs :: (dirs ++ [file])) (.file bytes) ↔
      ∃ name l, file = name ++ Path.of ".txt" ∧ r.accepted? fs dirs name = some l ∧
        bytes = Text.toUtf8 l.report := by
  constructor
  · generalize same : r.topName fs :: (dirs ++ [file]) = place
    intro expects
    cases expects with
    | report accepted =>
      obtain ⟨rfl, rfl⟩ := List.append_singleton_inj.mp (List.cons.inj same).2
      exact ⟨_, _, rfl, accepted, rfl⟩
  · rintro ⟨name, l, rfl, accepted, rfl⟩
    exact .report accepted

theorem Expects.first_eq {first : Name} {rest : Place} {kind : Kind}
    (expects : r.Expects fs (first :: rest) kind) : first = r.topName fs := by
  generalize same : first :: rest = rel at expects
  cases expects with
  | report accepted => exact (List.cons.inj same).1
  | way accepted above =>
    rw [← same] at above
    exact (List.cons_prefix_cons.mp above).1

section Written

variable (ready : r.Ready fs) (given : r.row fs ≠ []) {place : Place}
  (encoded : Path.ofText (r.treeName fs) = r.topName fs)
  (wrote : Tree.Wrote mid later place [.dir (r.treeName fs) (r.row fs)])

include ready given encoded wrote

theorem expects_top_dir (kind : Kind) :
    later.kind? (place ++ [r.topName fs]) = some kind ↔ r.Expects fs [r.topName fs] kind := by
  have there : later.kind? (place ++ [r.topName fs]) = some .dir := by
    have marked := wrote.alike [] (r.topName fs) .dir (by simp [Tree.marks_dir_nil, encoded])
    rwa [List.append_nil] at marked
  rw [there]
  constructor
  · intro same
    cases same
    exact r.expects_dir_iff [] |>.mpr (r.some_accepted ready given)
  · generalize top : [r.topName fs] = alone
    intro expects
    cases expects with
    | report accepted => simp at top
    | way => rfl

/-- The top directory of the output has what is expected and nothing else. -/
theorem expects_top (free : mid.kind? (place ++ [r.topName fs]) = none) (rel : Place)
    (kind : Kind) :
    later.kind? (place ++ r.topName fs :: rel) = some kind ↔
      r.Expects fs (r.topName fs :: rel) kind := by
  rcases List.eq_nil_or_concat rel with rfl | ⟨dirs, name, rfl⟩
  · exact r.expects_top_dir ready given encoded wrote kind
  · rw [List.concat_eq_append]
    have split : place ++ r.topName fs :: (dirs ++ [name]) =
        place ++ (r.topName fs :: dirs) ++ [name] := by simp
    have empty : mid.kind? (place ++ (r.topName fs :: dirs) ++ [name]) = none := by
      have below := kind?_below mid (place ++ [r.topName fs]) (dirs ++ [name]) (by simp)
        (by simp [free])
      simpa using below
    rw [split]
    cases kind with
    | dir =>
      rw [wrote.dir_iff _ _ empty, Tree.rowUnder_top encoded, r.dir_report_iff ready,
        expects_dir_iff]
      simp only [List.append_assoc, List.singleton_append]
    | file bytes =>
      rw [wrote.file_iff _ _ empty, expects_file_iff]
      simp only [Tree.leavesAt_top encoded, r.last_report_iff ready]
      constructor
      · rintro ⟨l, ⟨name, named, accepted⟩, same⟩
        exact ⟨name, l, named, accepted, same⟩
      · rintro ⟨name, l, named, accepted, same⟩
        exact ⟨l, ⟨name, named, accepted⟩, same⟩
    | link target =>
      constructor
      · intro linked
        exact absurd linked (wrote.plain _ target)
      · generalize r.topName fs :: (dirs ++ [name]) = rel
        intro expects
        cases expects

/-- If the output was empty, all of it is as expected. -/
theorem expects_output (empty : ∀ dirs name, mid.kind? (place ++ dirs ++ [name]) = none)
    (dir : mid.kind? place = some .dir) (rel : Place) (kind : Kind) :
    later.kind? (place ++ rel) = some kind ↔ r.Expects fs rel kind := by
  cases rel with
  | nil =>
    rw [List.append_nil, wrote.keeps.dirs place dir]
    constructor
    · intro same
      cases same
      obtain ⟨dirs, name, l, accepted⟩ := r.some_accepted ready given
      exact .way accepted List.nil_prefix
    · generalize root : ([] : Place) = rel
      intro expects
      cases expects with
      | report accepted => simp at root
      | way => rfl
  | cons first rest =>
    by_cases top : first = r.topName fs
    · have free : mid.kind? (place ++ [r.topName fs]) = none := by
        have free := empty [] (r.topName fs)
        rwa [List.append_nil] at free
      subst top
      exact r.expects_top ready given encoded wrote free rest kind
    · rw [wrote.beside empty (fun same => top (same.symm.trans encoded)) rest]
      constructor
      · intro there
        cases there
      · intro expects
        exact absurd expects.first_eq top

end Written

theorem replaced_expects (ready : r.Ready fs) (given : r.row fs ≠ [])
    (ran : Runs (r.replaceOutput (.dir (r.treeName fs) (r.row fs))) fs () later) :
    ∃ place, later.locate true r.output = .ok ⟨place, 40⟩ ∧
      (∀ rel kind, later.kind? (place ++ r.topName fs :: rel) = some kind ↔
        r.Expects fs (r.topName fs :: rel) kind) ∧
      ((r.destination = [] → fs.has r.output = true → r.force = true) →
        Settled (r.cleared fs) (fs.start r.destination) (Path.names r.destination) →
        ∀ rel kind, later.kind? (place ++ rel) = some kind ↔ r.Expects fs rel kind) := by
  have regular := ready.regular
  obtain ⟨mid, removed, made, written⟩ := r.runs_replaceOutput ran
  obtain ⟨plain, place, reaches, dir⟩ := r.output_dir regular removed made
  obtain ⟨_, _, top, _⟩ := (runs_bind_iff _ _ mid later ()).mp written
  rw [runs_change_iff] at top
  obtain ⟨named, shown⟩ := r.top_plain regular ready.directory plain top
  have encoded : Path.ofText (r.treeName fs) = r.topName fs := by
    rw [shown, r.text_topName regular ready.textual]
  obtain ⟨_, free, _⟩ := Tree.makeDir_below named plain reaches top
  have wrote := Tree.write_wrote r.output place _ mid later
    (.dir named (r.sound_row regular).1) plain reaches written
  rw [encoded] at free
  refine ⟨place, ?_, ?_, ?_⟩
  · exact (locate_ok_iff wrote.plain true _ _).mpr ⟨wrote.keeps.reaches reaches, rfl⟩
  · exact r.expects_top ready given encoded wrote free
  · intro empty settled
    have forced := r.forced_of_check regular.plain ready.checked empty
    exact r.expects_output ready given encoded wrote
      (r.output_empty regular forced settled removed made reaches) dir

/-- A conversion that ends without an error has found nothing just if no file is accepted, and
else has left the reports of the accepted files and the directories to them in its output. The
directory made there has nothing else in any case. Beside it nothing else is left either, unless
the destination is the empty path and the output was there and not to be replaced, or `..` in the
destination comes behind a name that leads to no directory. -/
theorem convert_exact (r : Request) (fs later : FileSystem) (result : Except ConvertError Outcome)
    (ready : r.Ready fs) (ran : (r.convert false).run fs = (result, later)) :
    (result = .ok .nothingFound ↔ ∀ dirs name, r.accepted? fs dirs name = none) ∧
      ∀ output leaves, result = .ok (.written output leaves) →
        output = r.output ∧ ∃ place, later.locate true output = .ok ⟨place, 40⟩ ∧
          (∀ rel kind, later.kind? (place ++ r.topName fs :: rel) = some kind ↔
            r.Expects fs (r.topName fs :: rel) kind) ∧
          ((r.destination = [] → fs.has r.output = true → r.force = true) →
            Settled (r.cleared fs) (fs.start r.destination) (Path.names r.destination) →
            ∀ rel kind, later.kind? (place ++ rel) = some kind ↔ r.Expects fs rel kind) := by
  have read := r.tree_row ready.regular ready.directory
  by_cases given : r.row fs = []
  · rw [r.run_nothing ready.checked (by rw [read, given]; rfl)] at ran
    cases ran
    refine ⟨iff_of_true rfl ((r.row_empty_iff ready).mp given), ?_⟩
    intro output leaves written
    cases written
  · have found : ¬∀ dirs name, r.accepted? fs dirs name = none := fun nothing =>
      given ((r.row_empty_iff ready).mpr nothing)
    have read_dir : r.tree? fs = .ok (some (.dir (r.treeName fs) (r.row fs))) := by
      rw [read, Tree.dir?, if_neg (by simpa using given)]
    rw [r.run_tree ready.checked read_dir] at ran
    cases replaced : (r.replaceOutput (.dir (r.treeName fs) (r.row fs))).run fs with
    | mk ended changed =>
      rw [replaced] at ran
      cases ended with
      | error e =>
        cases ran
        refine ⟨iff_of_false (by simp) found, ?_⟩
        intro output leaves written
        cases written
      | ok done =>
        cases ran
        refine ⟨iff_of_false (by simp) found, ?_⟩
        intro output leaves same
        cases same
        refine ⟨rfl, ?_⟩
        exact r.replaced_expects ready given replaced

/-- The output and the number of reports, if a conversion has written them. -/
def written? : Except ConvertError Outcome → Option (Path × Nat)
  | .ok (.written output leaves) => some (output, leaves)
  | _ => none

theorem written?_iff (result : Except ConvertError Outcome) (output : Path) (leaves : Nat) :
    written? result = some (output, leaves) ↔ result = .ok (.written output leaves) := by
  cases result with
  | error e => simp [written?]
  | ok outcome => cases outcome <;> simp [written?]

/-- A file of a class that is put together from one part. -/
def facadeOf (part : String) : List UInt8 :=
  Text.toUtf8 <| ".annotation runtime Lkotlin/Metadata;\nk = 0x4\nd1 = \x7b\n\"".toList ++
    part.toList ++ "\"\n\x7d\n.end annotation\n".toList

/-- Two roots with a file at one place, and what an earlier conversion has left. -/
def apk : FileSystem where
  entries := [
    (Path.of "apk", .dir [
      (Path.of "smali", .dir [(Path.of "a", .dir [(Path.of "A.smali", .file (facadeOf "first"))])]),
      (Path.of "smali_2", .dir [
        (Path.of "a", .dir [(Path.of "A.smali", .file (facadeOf "second"))]),
        (Path.of "B.smali", .file (facadeOf "other"))])]),
    (Path.of "out", .dir [(Path.of "KotlinClassMetadata", .dir [(Path.of "old.txt", .file [])])])]

def update : Request where
  source := Path.of "apk"
  destination := Path.of "out"
  force := true

theorem ready_update : update.Ready apk where
  regular := by
    unfold FileSystem.Regular
    decide +kernel
  textual := by decide +kernel
  directory := by decide +kernel
  checked := by decide +kernel
  walkable root member := root.2.walkable_of_check <| by
    revert root
    decide +kernel

theorem convert_exact_update :
    update.Ready apk ∧ ∃ later place,
      (update.convert false).run apk = (.ok (.written update.output 3), later) ∧
        later.locate true update.output = .ok ⟨place, 40⟩ ∧
        ∀ rel kind, later.kind? (place ++ rel) = some kind ↔ update.Expects apk rel kind := by
  have written : written? ((update.convert false).run apk).1 = some (update.output, 3) := by
    decide +kernel
  rw [written?_iff] at written
  generalize ran : (update.convert false).run apk = ended at written
  obtain ⟨result, later⟩ := ended
  simp only at written
  subst written
  obtain ⟨_, place, located, _, all⟩ :=
    (convert_exact update apk later _ ready_update ran).2 _ _ rfl
  exact ⟨ready_update, later, place, rfl, located, all nofun (settled_of_down _ _ _ (by decide))⟩

/-- Reports of another conversion lie where paths start from. -/
def beside : FileSystem where
  entries := [
    (Path.of "s", .dir [(Path.of "A.smali", .file (facadeOf "only"))]),
    (Path.of "KotlinClassMetadata", .dir [(Path.of "old.txt", .file [])])]

/-- The conversion of `s` in `beside`, walked by this path. -/
def conversion (source : Path) (destination : String) (force : Bool) : Request where
  source := source
  destination := Path.of destination
  force := force

variable {r}

theorem regular_beside : beside.Regular := by
  unfold FileSystem.Regular
  decide +kernel

theorem ready_beside (checked : beside.isDir r.source = true ∧ r.check beside = .ok () ∧
    ∀ root ∈ r.walked beside, root.2.isWalkable = true) : r.Ready beside where
  regular := regular_beside
  textual := by decide +kernel
  directory := checked.1
  checked := checked.2.1
  walkable root member := root.2.walkable_of_check (checked.2.2 root member)

theorem Expects.two_names {fs : FileSystem} {rel : Place} {bytes : List UInt8}
    (expects : r.Expects fs rel (.file bytes)) : 2 ≤ rel.length := by
  generalize same : Kind.file bytes = kind at expects
  cases expects with
  | report accepted => simp
  | way accepted above => cases same

/-- The conversion writes, and leaves a file in its output that no accepted file stands for. -/
def Strays (r : Request) (fs : FileSystem) : Prop :=
  r.Ready fs ∧ ∃ leaves later place rel bytes,
    (r.convert false).run fs = (.ok (.written r.output leaves), later) ∧
      later.locate true r.output = .ok ⟨place, 40⟩ ∧
      later.kind? (place ++ rel) = some (.file bytes) ∧ ¬r.Expects fs rel (.file bytes)

theorem strays_of_check (ready : r.Ready beside)
    (checked : written? ((r.convert false).run beside).1 = some (r.output, 1) ∧
      (((r.convert false).run beside).2.locate true r.output).toOption.map
        (fun arrival => (arrival.place, arrival.links)) = some ([outputName], 40) ∧
      ((r.convert false).run beside).2.kind? [outputName, Path.of "old.txt"] = some (.file [])) :
    Strays r beside := by
  obtain ⟨written, leads, stays⟩ := checked
  rw [written?_iff] at written
  generalize ran : (r.convert false).run beside = ended at written leads stays
  obtain ⟨result, later⟩ := ended
  simp only at written leads stays
  subst written
  cases located : later.locate true r.output with
  | error e =>
    rw [located] at leads
    cases leads
  | ok arrival =>
    obtain ⟨place, links⟩ := arrival
    rw [located] at leads
    obtain ⟨rfl, rfl⟩ := Prod.mk.inj (Option.some.inj leads)
    refine ⟨ready, 1, later, _, [Path.of "old.txt"], [], ran, located, stays, ?_⟩
    intro expects
    exact absurd expects.two_names (by decide)

/-- A path of `s` that is so long that none is left for the file in it. -/
def padded : Path := Path.of "s" ++ List.replicate 4090 Path.slash

theorem convert_inexact :
    Strays (conversion (Path.of "s") "nope/.." true) beside ∧
      Strays (conversion (Path.of "s") "" false) beside ∧
      (conversion padded "out" true).Ready beside ∧
        ((conversion padded "out" true).convert false).run beside = (.ok .nothingFound, beside) ∧
        beside.node? [Path.of "s", Path.of "A.smali"] = some (.file (facadeOf "only")) ∧
        (Leaf.ofFile? (Path.of "A.smali") (facadeOf "only")).isSome = true := by
  have long : (conversion padded "out" true).Ready beside := ready_beside (by decide +kernel)
  refine ⟨?_, ?_, long, ?_, rfl, by decide +kernel⟩
  · exact strays_of_check (ready_beside (by decide +kernel)) (by decide +kernel)
  · exact strays_of_check (ready_beside (by decide +kernel)) (by decide +kernel)
  · apply run_nothing _ long.checked
    have nothing : (conversion padded "out" true).isMultiRoot beside = false ∧
        Tree.read? beside padded = none := by decide +kernel
    rw [tree?, nothing.1]
    exact congrArg Except.ok nothing.2

end Request

end SmaliReport
