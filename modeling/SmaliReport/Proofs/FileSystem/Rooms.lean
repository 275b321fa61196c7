import SmaliReport.Proofs.FileSystem.Change
import SmaliReport.Proofs.FileSystem.Edits
import SmaliReport.Proofs.FileSystem.Links
import SmaliReport.Proofs.FileSystem.Widths

/-!
A directory as a file system of its own. What is made in a directory that was empty is made as it
would be in an empty file system by a path of the same width, wherever the directory lies and
through whatever links its path leads.
-/

namespace SmaliReport

/-- A change below a directory is a change in it. -/
theorem Node.at?_alterAt_below (change : Option Node → Option Node) (place q : Place)
    (deeper : q ≠ []) {entries inner : List (Name × Node)}
    (there : (Node.dir entries).at? place = some (.dir inner)) :
    (Node.dir (alterAt change (place ++ q) entries)).at? place =
      some (.dir (alterAt change q inner)) := by
  induction place generalizing entries with
  | nil =>
    cases there
    rfl
  | cons first place ih =>
    obtain ⟨node, found, there⟩ := Option.bind_eq_some_iff.mp there
    obtain ⟨below, rfl⟩ : ∃ below, node = .dir below := by
      cases place <;> cases node <;> simp_all [Node.at?]
    obtain ⟨second, rest, shape⟩ := List.exists_cons_of_ne_nil (l := place ++ q) (by simp [deeper])
    have again := ih there
    rw [shape] at again
    rw [List.cons_append, shape, alterAt_cons, Node.at?, lookup_alter_inDir, found]
    exact again

namespace FileSystem

variable {fs later room : FileSystem} {path : Path} {place : Place} {links : Nat}

theorem plain_empty : Plain {} := by
  intro q target
  cases q <;> simp [kind?, node?, Node.at?, Node.kind]

theorem go_proper {kinds : Place → Option Kind} {place last : Place} {names : List Name}
    (each : ∀ name ∈ names, Node.ProperName name) (arrives : go kinds place names = .ok last) :
    last = place ++ names := by
  induction names generalizing place with
  | nil =>
    cases arrives
    rw [List.append_nil]
  | cons name rest ih =>
    rw [List.forall_mem_cons] at each
    obtain ⟨next, taken, onward⟩ := (go_cons_ok_iff _ _ _ _).mp arrives
    rw [ih each.2 onward, step_named each.1.dot each.1.dots taken, ← List.append_cons]

/-- All of the directory `place`, which was empty before, is the other file system. -/
structure Holds (fs later : FileSystem) (place : Place) (room : FileSystem) : Prop where
  here : later.here = fs.here
  plain : Plain room
  inside : later.node? place = some (.dir room.entries)
  outside : ∀ q, ¬ place <+: q → later.kind? q = fs.kind? q

theorem Holds.empty (there : fs.node? place = some (.dir [])) : Holds fs fs place {} :=
  ⟨rfl, plain_empty, there, fun _ _ => rfl⟩

theorem Holds.node? (holds : Holds fs later place room) (q : Place) :
    later.node? (place ++ q) = room.node? q := by
  rw [FileSystem.node?, Node.at?_append, ← FileSystem.node?, holds.inside]
  rfl

theorem Holds.kind? (holds : Holds fs later place room) (q : Place) :
    later.kind? (place ++ q) = room.kind? q := by
  rw [FileSystem.kind?, holds.node?, ← FileSystem.kind?]

theorem Holds.extends (holds : Holds fs later place room)
    (there : fs.node? place = some (.dir [])) : Extends fs later where
  here := holds.here
  kinds q kind known := by
    by_cases below : place <+: q
    · obtain ⟨more, rfl⟩ := below
      rw [FileSystem.kind?, FileSystem.node?, Node.at?_append, ← FileSystem.node?, there] at known
      cases more with
      | nil =>
        rw [holds.kind?]
        exact known
      | cons first more => cases known
    · rw [holds.outside q below]
      exact known

theorem Holds.put (holds : Holds fs later place room) {dirs : Place} {name : Name} {node : Node}
    (dir : room.kind? dirs = some .dir) (sets : Sets room (room.put (dirs ++ [name]) node)
      (dirs ++ [name]) node.kind) (bare : ∀ target, node.kind ≠ .link target) :
    Holds fs (later.put (place ++ (dirs ++ [name])) node) place
      (room.put (dirs ++ [name]) node) where
  here := holds.here
  plain := sets.plain bare holds.plain
  inside := Node.at?_alterAt_below _ place (dirs ++ [name]) (by simp) holds.inside
  outside q apart := by
    have above : later.kind? (place ++ dirs) = some .dir := by rw [holds.kind?, dir]
    have beside : ¬ place ++ dirs ++ [name] <+: q := by
      intro below
      rw [List.append_assoc] at below
      exact apart ((List.prefix_append place _).trans below)
    rw [← List.append_assoc, kind?_put later _ name node q above, if_neg beside,
      holds.outside q apart]

theorem Holds.follow (holds : Holds fs later place room) (through : Bool) (links : Nat)
    {names : List Name} (dots : ∀ name ∈ names, name ≠ Path.dots) (q : Place) :
    later.follow through links (place ++ q) names =
      (go room.kind? q names).map fun last => ⟨place ++ last, links⟩ := by
  induction names generalizing q with
  | nil =>
    rw [follow_nil, go_nil]
    rfl
  | cons name rest ih =>
    rw [List.forall_mem_cons] at dots
    rw [follow_cons, go_cons, step, holds.kind? q]
    cases room.kind? q with
    | none => rfl
    | some kind =>
      cases kind with
      | file bytes => rfl
      | link target => rfl
      | dir =>
        simp only [if_neg dots.1]
        split
        · exact ih dots.2 q
        · split
          · rfl
          · have onward := ih dots.2 (q ++ [name])
            rw [← List.append_assoc] at onward
            rw [List.append_assoc, holds.kind? (q ++ [name]), ← List.append_assoc]
            cases there : room.kind? (q ++ [name]) with
            | none =>
              cases rest with
              | nil => simp [bind, Except.bind, Except.map]
              | cons next rest => simp [bind, Except.bind, Except.map, go_cons, step, there]
            | some kind =>
              cases kind with
              | file bytes => exact onward
              | dir => exact onward
              | link target => exact absurd there (holds.plain _ target)

/-- Both fail for the same cause, or the directory still is the other file system. -/
inductive Within (fs : FileSystem) (place : Place) :
    Except FileError FileSystem → Except FileError FileSystem → Prop where
  | error (e : FileError) : Within fs place (.error e) (.error e)
  | ok {later room : FileSystem} : Holds fs later place room →
      Within fs place (.ok later) (.ok room)

section Entry

variable {dirs : List Name} {name : Name} (each : ∀ name ∈ dirs, Node.ProperName name)
  (named : Node.ProperName name)

include each named

theorem proper_entry : ∀ other ∈ dirs ++ [name], Node.ProperName other := by
  intro other member
  rcases List.mem_append.mp member with above | last
  · exact each other above
  · exact List.mem_singleton.mp last ▸ named

theorem locate_entry (fs : FileSystem) (through : Bool) (nul : 0 ∉ path) :
    fs.locate through ((dirs ++ [name]).foldl Path.join path) =
      if Path.fits ((dirs ++ [name]).foldl Path.join path) then
        fs.follow through 40 (fs.start path) (Path.parts path ++ (dirs ++ [name]))
      else .error .nameTooLong := by
  have all := proper_entry each named
  have nonempty : (dirs ++ [name]).foldl Path.join path ≠ [] := by
    intro nothing
    have parts := Path.parts_below all path
    rw [nothing] at parts
    simp at parts
  rw [locate, if_neg (Path.nul_below all nul), if_neg nonempty, Path.isAbsolute_below all,
    Path.steps_entry each named]
  cases Path.fits ((dirs ++ [name]).foldl Path.join path) <;> rfl

theorem locate_slashes (plain : Plain room) {width : Nat} (positive : 0 < width) (through : Bool) :
    room.locate through ((dirs ++ [name]).foldl Path.join (Path.slashes width)) =
      if Path.fits ((dirs ++ [name]).foldl Path.join (Path.slashes width)) then
        (go room.kind? [] (dirs ++ [name])).map fun place => ⟨place, 40⟩
      else .error .nameTooLong := by
  have nul : 0 ∉ Path.slashes width := by
    intro member
    cases List.eq_of_mem_replicate member
  rw [locate_entry each named room through nul, Path.parts_slashes_eq_nil, List.nil_append, start,
    if_pos (Path.isAbsolute_slashes positive), follow_plain plain]

variable (found : fs.find path = .ok (⟨place, links⟩, .dir []))

include found

/-- The path of an entry leads to it in the directory and in the file system that the directory is,
or to nothing in both. -/
theorem locate_within (holds : Holds fs later place room) (through : Bool) :
    (∃ e, later.locate through ((dirs ++ [name]).foldl Path.join path) = .error e ∧
        room.locate through ((dirs ++ [name]).foldl Path.join (Path.slashes (Path.width path))) =
          .error e) ∨
      (room.kind? dirs = some .dir ∧
        later.locate through ((dirs ++ [name]).foldl Path.join path) =
          .ok ⟨place ++ (dirs ++ [name]), links⟩ ∧
        room.locate through ((dirs ++ [name]).foldl Path.join (Path.slashes (Path.width path))) =
          .ok ⟨dirs ++ [name], 40⟩) := by
  obtain ⟨nul, given, _, arrives, there⟩ := find_ok_cases found
  have positive := Path.width_pos given
  have dir : fs.kind? place = some .dir := (kind?_eq_dir_iff fs place).mpr ⟨[], there⟩
  have dots : ∀ other ∈ dirs ++ [name], other ≠ Path.dots := fun other member =>
    (proper_entry each named other member).dots
  obtain ⟨tail, ending, steps⟩ := Path.steps_parts path
  have onward : later.follow through 40 (later.start path) (Path.parts path ++ (dirs ++ [name])) =
      (go room.kind? [] (dirs ++ [name])).map fun last => ⟨place ++ last, links⟩ := by
    rw [steps] at arrives
    have kept := holds.extends there
    have start : later.start path = fs.start path := by simp only [FileSystem.start, kept.here]
    rw [start, follow_onward kept dir ending through (.inl (by simp)) 40 _ _ arrives,
      ← holds.follow through links dots [], List.append_nil]
  rw [locate_entry each named later through nul, locate_slashes each named holds.plain positive, onward]
  have fits := Path.fits_entry each named (Path.width_slashes positive).symm
  by_cases short : Path.fits ((dirs ++ [name]).foldl Path.join path)
  · rw [if_pos short, if_pos (fits.mp short)]
    cases ends : go room.kind? [] (dirs ++ [name]) with
    | error e => exact .inl ⟨e, rfl, rfl⟩
    | ok last =>
      have lexical := go_proper (proper_entry each named) ends
      rw [List.nil_append] at lexical
      subst lexical
      obtain ⟨above, way, taken⟩ := (go_concat_ok_iff _ _ _ _).mp ends
      obtain rfl : above = dirs := go_proper each way
      exact .inr ⟨step_ok_dir taken, rfl, rfl⟩
  · rw [if_neg short, if_neg fun long => short (fits.mpr long)]
    exact .inl ⟨_, rfl, rfl⟩

theorem makeDir_within (holds : Holds fs later place room) :
    Within fs place (later.makeDir ((dirs ++ [name]).foldl Path.join path))
      (room.makeDir ((dirs ++ [name]).foldl Path.join (Path.slashes (Path.width path)))) := by
  have bare (base : Path) := tidy_bare (.inl (Path.join_bare (dirs.foldl Path.join base) name
    named.nonempty named.slash))
  simp only [← Path.below_concat] at bare
  simp only [makeDir, bare, free]
  rcases locate_within each named found holds false with
    ⟨e, located, located_room⟩ | ⟨dir, located, located_room⟩
  · rw [located, located_room]
    exact .error e
  · rw [located, located_room]
    simp only [bind, Except.bind, holds.node?]
    cases there : room.node? (dirs ++ [name]) with
    | some node => exact .error .exists
    | none =>
      have missing := (kind?_eq_none_iff room _).mpr there
      refine .ok (holds.put dir ⟨rfl, fun q => ?_⟩ (by simp [Node.kind]))
      exact kind?_put_bare room dirs name (.dir []) q dir (fun _ _ => rfl) (by simp [missing])

theorem write_within (holds : Holds fs later place room) (bytes : List UInt8) :
    Within fs place (later.write ((dirs ++ [name]).foldl Path.join path) bytes)
      (room.write ((dirs ++ [name]).foldl Path.join (Path.slashes (Path.width path))) bytes) := by
  simp only [FileSystem.write]
  rcases locate_within each named found holds true with
    ⟨e, located, located_room⟩ | ⟨dir, located, located_room⟩
  · rw [located, located_room]
    exact .error e
  · rw [located, located_room]
    simp only [bind, Except.bind, holds.node?]
    have put (free : room.kind? (dirs ++ [name]) ≠ some .dir) :
        Holds fs (later.put (place ++ (dirs ++ [name])) (.file bytes)) place
          (room.put (dirs ++ [name]) (.file bytes)) := by
      refine holds.put dir ⟨rfl, fun q => ?_⟩ (by simp [Node.kind])
      exact kind?_put_bare room dirs name (.file bytes) q dir (fun _ _ => rfl) free
    cases there : room.node? (dirs ++ [name]) with
    | none => exact .ok (put (by simp [FileSystem.kind?, there]))
    | some node =>
      cases node with
      | dir entries => exact .error .isDirectory
      | file before => exact .ok (put (by simp [FileSystem.kind?, there, Node.kind]))
      | link target => exact .ok (put (by simp [FileSystem.kind?, there, Node.kind]))

end Entry

end FileSystem

end SmaliReport
