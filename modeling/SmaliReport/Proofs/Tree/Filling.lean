import SmaliReport.Proofs.FileSystem.Rooms
import SmaliReport.Proofs.Tree.Reread
import SmaliReport.Proofs.Tree.Separate

/-!
Writing a tree into an empty directory, which is like writing it into an empty file system. The
directory then holds what the tree says and nothing else.
-/

namespace SmaliReport.Tree

open FileSystem

/-- The entries are what the tree says and nothing else: a directory for each path of directories,
and at the path of a report the last one of the name. -/
structure Laid (t : Tree) (entries : List (Name × Node)) : Prop where
  regular : (Node.dir entries).Regular
  dirs : ∀ above name, (∃ inner, (Node.dir entries).at? (above ++ [name]) = some (.dir inner)) ↔
    name ∈ (dirNames (rowUnder above [t])).map Path.ofText
  files : ∀ above name bytes, (Node.dir entries).at? (above ++ [name]) = some (.file bytes) ↔
    ∃ l, (leavesAt [t] above name).getLast? = some l ∧ bytes = Text.toUtf8 l.report

section Room

variable {fs later room : FileSystem} {path : Path} {place : Place} {links : Nat}

/-- Both runs fail or both succeed, and the directory still is the other file system. -/
inductive Mirrors (fs : FileSystem) (place : Place) :
    Except Failure Unit × FileSystem → Except Failure Unit × FileSystem → Prop where
  | ok {later room : FileSystem} : Holds fs later place room →
      Mirrors fs place (.ok (), later) (.ok (), room)
  | error (failure other : Failure) {later room : FileSystem} : Holds fs later place room →
      Mirrors fs place (.error failure, later) (.error other, room)

theorem Mirrors.change {edit edit_room : FileSystem → Except FileError FileSystem}
    (activity : String) (path path_room : Path) (holds : Holds fs later place room)
    (within : Within fs place (edit later) (edit_room room)) :
    Mirrors fs place ((change activity path edit).run later)
      ((SmaliReport.change activity path_room edit_room).run room) := by
  simp only [SmaliReport.change, run_bind, run_get, run_lift]
  generalize edit later = once at within
  generalize edit_room room = again at within
  cases within with
  | error e => exact .error _ _ holds
  | ok made => exact .ok made

theorem Mirrors.bind {program program_room next next_room : FileM Failure Unit}
    (first : Mirrors fs place (program.run later) (program_room.run room))
    (rest : ∀ later room, Holds fs later place room →
      Mirrors fs place (next.run later) (next_room.run room)) :
    Mirrors fs place ((program >>= fun _ => next).run later)
      ((program_room >>= fun _ => next_room).run room) := by
  rw [run_bind, run_bind]
  generalize program.run later = once at first
  generalize program_room.run room = again at first
  cases first with
  | ok holds => exact rest _ _ holds
  | error _ _ holds => exact .error _ _ holds

mutual

/-- Each change is made in the directory as it is made in the other file system, so that both runs
stop at the same change, if they stop. -/
theorem write_mirrors (found : fs.find path = .ok (⟨place, links⟩, .dir [])) :
    ∀ (t : Tree) (dirs : List Name) (later room : FileSystem), Nameable t →
      (∀ name ∈ dirs, Node.ProperName name) → Holds fs later place room →
      Mirrors fs place ((write (dirs.foldl Path.join path) t).run later)
        ((write (dirs.foldl Path.join (Path.slashes (Path.width path))) t).run room)
  | .leaf l, dirs, later, room, nameable, each, holds => by
    have within := write_within each nameable.proper_file found holds (Text.toUtf8 l.report)
    rw [Path.below_concat, Path.below_concat] at within
    exact .change _ _ _ holds within
  | .dir name children, dirs, later, room, nameable, each, holds => by
    cases nameable with
    | dir named each_child =>
      have within := makeDir_within each named found holds
      rw [Path.below_concat, Path.below_concat] at within
      refine .bind (.change _ _ _ holds within) fun later room holds => ?_
      rw [← Path.below_concat, ← Path.below_concat]
      exact writeAll_mirrors found children (dirs ++ [Path.ofText name]) later room each_child
        (proper_entry each named) holds

theorem writeAll_mirrors (found : fs.find path = .ok (⟨place, links⟩, .dir [])) :
    ∀ (ts : List Tree) (dirs : List Name) (later room : FileSystem), (∀ t ∈ ts, Nameable t) →
      (∀ name ∈ dirs, Node.ProperName name) → Holds fs later place room →
      Mirrors fs place ((writeAll (dirs.foldl Path.join path) ts).run later)
        ((writeAll (dirs.foldl Path.join (Path.slashes (Path.width path))) ts).run room)
  | [], _, _, _, _, _, holds => .ok holds
  | t :: ts, dirs, later, room, nameable, each, holds => by
    rw [List.forall_mem_cons] at nameable
    have first := write_mirrors found t dirs later room nameable.1 each holds
    exact .bind first fun later room holds =>
      writeAll_mirrors found ts dirs later room nameable.2 each holds

end

/-- A tree is written into an empty directory as it is into an empty file system. -/
theorem runs_write_room {t : Tree} (nameable : Nameable t)
    (found : fs.find path = .ok (⟨place, links⟩, .dir [])) :
    (∀ later, Runs (write path t) fs () later → ∃ room, Holds fs later place room ∧
      Runs (write (Path.slashes (Path.width path)) t) {} () room) ∧
    ∀ room, Runs (write (Path.slashes (Path.width path)) t) {} () room →
      ∃ later, Runs (write path t) fs () later := by
  have mirrors :=
    write_mirrors found t [] fs {} nameable nofun (.empty (find_ok_cases found).2.2.2.2)
  simp only [List.foldl_nil] at mirrors
  unfold Runs
  generalize (write path t).run fs = once at mirrors
  generalize (write (Path.slashes (Path.width path)) t).run {} = again at mirrors
  cases mirrors with
  | ok holds =>
    refine ⟨fun later ran => ?_, fun _ _ => ⟨_, rfl⟩⟩
    cases ran
    exact ⟨_, holds, rfl⟩
  | error => exact ⟨nofun, nofun⟩

end Room

theorem empty_bare (dirs : List Name) (name : Name) :
    ({} : FileSystem).kind? ([] ++ dirs ++ [name]) = none := by
  cases dirs <;> rfl

section Slashes

variable {t : Tree} {room : FileSystem} {width : Nat} (nameable : Nameable t) (wide : 0 < width)

include wide

theorem reaches_slashes (fits : Path.fits (Path.slashes width)) :
    ({} : FileSystem).Reaches (Path.slashes width) [] where
  nul member := by cases List.eq_of_mem_replicate member
  given := Path.slashes_ne_nil wide
  fits := fits
  arrives := by
    rw [start, if_pos (Path.isAbsolute_slashes wide), go_steps_iff _ (kind?_nil {}),
      Path.parts_slashes_eq_nil, go_nil]

include nameable

theorem runs_slashes_iff : (∃ room, Runs (write (Path.slashes width) t) {} () room) ↔
    Separate t ∧ Fitting (Path.slashes width) t := by
  have iff (fits : Path.fits (Path.slashes width)) := runs_write_iff (Path.slashes width) [] t {}
    nameable.proper plain_empty (reaches_slashes wide fits) rfl
  rw [← writable_iff empty_bare nameable]
  constructor
  · rintro ⟨room, ran⟩
    exact (iff (fits_of_runs nameable plain_empty ran)).mp ⟨room, ran⟩
  · intro writable
    have fitting := ((writable_iff empty_bare nameable).mp writable).2
    exact (iff (fitting.fits nameable)).mpr writable

theorem laid_of_runs (ran : Runs (write (Path.slashes width) t) {} () room) :
    Laid t room.entries := by
  have reaches := reaches_slashes wide (fits_of_runs nameable plain_empty ran)
  have wrote := write_wrote _ [] t {} room nameable.proper plain_empty reaches ran
  have edits := write_edits _ [] t {} room nameable.proper plain_empty reaches rfl ran
  refine ⟨edits.regular (.dir List.nodup_nil nofun nofun), fun above name => ?_,
    fun above name bytes => ?_⟩
  · rw [dirNames, ← wrote.dir_iff above name (empty_bare above name), List.nil_append,
      kind?_eq_dir_iff]
    rfl
  · rw [← wrote.file_iff above name (empty_bare above name), List.nil_append, kind?_eq_file_iff]
    rfl

end Slashes

/-- A tree can be written into an empty directory just if its names are apart and no path is too
long, and the directory then holds what the tree says. -/
theorem write_empty_directory {fs : FileSystem} {parent : Path} {arrival : Arrival} {t : Tree}
    (nameable : Nameable t) (found : fs.find parent = .ok (arrival, .dir [])) :
    ((∃ later, Runs (write parent t) fs () later) ↔ Separate t ∧ Fitting parent t) ∧
      ∀ later, Runs (write parent t) fs () later →
        ∃ entries, later.find parent = .ok (arrival, .dir entries) ∧ Laid t entries := by
  obtain ⟨_, given, _, _, there⟩ := find_ok_cases found
  have wide := Path.width_pos given
  have same := Path.width_slashes wide
  have room := runs_write_room nameable found
  constructor
  · calc
      (∃ later, Runs (write parent t) fs () later) ↔
          ∃ room, Runs (write (Path.slashes (Path.width parent)) t) {} () room := by
        constructor
        · rintro ⟨later, ran⟩
          obtain ⟨room, _, ran⟩ := room.1 later ran
          exact ⟨room, ran⟩
        · rintro ⟨later, ran⟩
          exact room.2 later ran
      _ ↔ Separate t ∧ Fitting (Path.slashes (Path.width parent)) t :=
        runs_slashes_iff nameable wide
      _ ↔ Separate t ∧ Fitting parent t := by
        refine and_congr_right fun _ => ⟨?_, ?_⟩
        · exact Fitting.of_width same nameable
        · exact Fitting.of_width same.symm nameable
  · intro later ran
    obtain ⟨room, holds, ran⟩ := room.1 later ran
    obtain ⟨entries, found_later, there_later⟩ := find_extends (holds.extends there) found
    obtain rfl : entries = room.entries := by
      rw [holds.inside] at there_later
      cases there_later
      rfl
    exact ⟨room.entries, found_later, laid_of_runs nameable wide ran⟩

/-- An empty directory, and a link that leads to it. -/
def linkedRoom : FileSystem :=
  { entries := [(Path.of "to", .link (Path.of "out")), (Path.of "out", .dir [])] }

def facadeLeaf (name : Text) : Leaf :=
  { plainLeaf name with description := .multiFileFacade ["p".toList] }

/-- A directory with two reports of one name, and a directory between them. -/
def doubled : Tree :=
  .dir ['a']
    [.leaf (plainLeaf ['X']), .dir ['b'] [.leaf (plainLeaf ['X'])], .leaf (facadeLeaf ['X'])]

theorem write_empty_directory_linked :
    Nameable doubled ∧ linkedRoom.find (Path.of "to") = .ok (⟨[Path.of "out"], 39⟩, .dir []) ∧
      ∃ later entries, Runs (write (Path.of "to") doubled) linkedRoom () later ∧
        later.find (Path.of "to") = .ok (⟨[Path.of "out"], 39⟩, .dir entries) ∧
        (Node.dir entries).at? [Path.of "a", Path.of "X.txt"] =
          some (.file (Text.toUtf8 (facadeLeaf ['X']).report)) := by
  have nameable : Nameable doubled := .dir (by decide) (by
    simp only [List.forall_mem_cons]
    exact ⟨.leaf (by decide) (by decide) (by decide),
      .dir (by decide) (by simpa using .leaf (by decide) (by decide) (by decide)),
      .leaf (by decide) (by decide) (by decide), List.forall_mem_nil _⟩)
  have separate : Separate doubled := .dir ['a'] (by decide) (by
    simp [dirName?, Leaf.file, plainLeaf, facadeLeaf]) (by
    simp only [List.forall_mem_cons]
    exact ⟨.leaf _, .dir ['b'] (by decide) (by simp [dirName?]) (by simpa using .leaf _), .leaf _,
      List.forall_mem_nil _⟩)
  have fitting : Fitting (Path.of "to") doubled := .dir (by decide) (by
    simp only [List.forall_mem_cons]
    exact ⟨.leaf (by decide), .dir (by decide) (by simpa using .leaf (by decide)),
      .leaf (by decide), List.forall_mem_nil _⟩)
  have found : linkedRoom.find (Path.of "to") = .ok (⟨[Path.of "out"], 39⟩, .dir []) := by rfl
  obtain ⟨succeeds, laid⟩ := write_empty_directory nameable found
  obtain ⟨later, ran⟩ := succeeds.mpr ⟨separate, fitting⟩
  obtain ⟨entries, found_later, laid⟩ := laid later ran
  refine ⟨nameable, found, later, entries, ran, found_later, ?_⟩
  exact (laid.files [Path.of "a"] (Path.of "X.txt") _).mpr ⟨facadeLeaf ['X'], by rfl, rfl⟩

/-- An empty directory, and a path that leads to it and is nearly too long. -/
def wideRoom : FileSystem := { entries := [(Path.of "p", .dir [])] }

def wideParent : Path := Path.of "p" ++ Path.slashes 4090

theorem width_wideParent : Path.width wideParent = 4091 := by
  have slashes : [Path.slash].isSuffixOf (Path.slashes 4090) := Path.isSuffixOf_slashes (by decide)
  obtain ⟨front, slash⟩ := (Path.isSuffixOf_slash _).mp slashes
  have ends := (Path.isSuffixOf_slash wideParent).mpr
    ⟨Path.of "p" ++ front, by rw [wideParent, slash, List.append_assoc]⟩
  rw [Path.width, Path.join_nil, if_pos (.inr ends), wideParent, List.length_append,
    Path.length_slashes]
  rfl

theorem reaches_wideParent : wideRoom.Reaches wideParent [Path.of "p"] where
  nul member := by
    rcases List.mem_append.mp member with first | slash
    · exact absurd first (by decide)
    · cases List.eq_of_mem_replicate slash
  given := List.append_ne_nil_of_left_ne_nil (by decide) _
  fits := by
    rw [Path.fits, wideParent, List.length_append, Path.length_slashes]
    exact decide_eq_true (by decide)
  arrives := by
    have parts : Path.parts wideParent = [Path.of "p"] :=
      Path.parts_slashes (Path.of "p") _ fun _ member => List.eq_of_mem_replicate member
    rw [go_steps_iff wideParent rfl, parts]
    rfl

theorem write_path_too_long :
    Nameable (.leaf (plainLeaf ['A'])) ∧ Separate (.leaf (plainLeaf ['A'])) ∧
      wideRoom.find wideParent = .ok (⟨[Path.of "p"], 40⟩, .dir []) ∧
      ¬∃ later, Runs (write wideParent (.leaf (plainLeaf ['A']))) wideRoom () later := by
  have sets : Sets {} wideRoom [Path.of "p"] .dir :=
    ⟨rfl, fun q => kind?_put_bare {} [] (Path.of "p") (.dir []) q rfl (fun _ _ => rfl) nofun⟩
  have plain := sets.plain nofun plain_empty
  refine ⟨.leaf (by decide) (by decide) (by decide), .leaf _,
    (find_ok_iff plain wideParent ⟨[Path.of "p"], 40⟩ _).mpr ⟨⟨reaches_wideParent, rfl⟩, rfl⟩, ?_⟩
  rintro ⟨later, ran⟩
  obtain ⟨_, reaches, _⟩ := write_sets plain ((runs_change_iff _ _ _ _ later).mp ran)
  have fits := (Path.fits_join_iff wideParent _ (by decide)).mp reaches.fits
  rw [width_wideParent] at fits
  exact absurd fits (by decide)

end SmaliReport.Tree
