import SmaliReport.Proofs.Convert.Conversion

/-!
Which annotated files a walk finds. A file at the end of its path has its leaf in the tree unless a
directory on the way is named like a smali file: the walk then takes that directory for a file, and
everything below it is lost.
-/

namespace SmaliReport.Tree

open FileSystem

/-- Of directories with the same texts a walk goes into all or into none. -/
theorem walks_into {above dirs : List Name} (texts : above.map Path.text = dirs.map Path.text)
    (walked : ∀ dir ∈ above, isSmali dir = false) : ∀ dir ∈ dirs, isSmali dir = false := by
  intro dir member
  have shown : Path.text dir ∈ above.map Path.text := texts ▸ List.mem_map_of_mem member
  obtain ⟨other, there, same⟩ := List.mem_map.mp shown
  rw [← isSmali_shown, ← same, isSmali_shown]
  exact walked other there

section Source

variable {fs : FileSystem} {source : Path} {arrival : Arrival} {entries : List (Name × Node)}
  (found : fs.find source = .ok (arrival, .dir entries))

include found

theorem read_row_iff (children : List Tree) :
    read? fs source = some (.dir (rootNameOf fs source) children) ↔
      children ≠ [] ∧
        children = ofEntries (ofLink? fs arrival.links) arrival.place source entries := by
  simp only [read?, found, dir?]
  split
  · rename_i nothing
    have empty : ofEntries (ofLink? fs arrival.links) arrival.place source entries = [] := by
      simpa using nothing
    simp [empty]
  · rename_i given
    simp only [Option.some.injEq, dir.injEq, true_and]
    constructor
    · rintro rfl
      exact ⟨by simpa using given, rfl⟩
    · exact fun row => row.2.symm

/-- What is read of a directory has a leaf in a place just if the walk has met a file for it. -/
theorem reads_iff_met (regular : fs.Regular) (dirs : List Text) (name : Text) (l : Leaf) :
    (∃ children, read? fs source = some (.dir (rootNameOf fs source) children) ∧
      l ∈ leavesNamed children dirs name) ↔
    ∃ above stem, above.map Path.text = dirs ∧ Path.text stem = name ∧
      Leaf.met? source (.dir entries) above stem = some l := by
  rw [← mem_leavesNamed_iff (ofLink? fs arrival.links) arrival.place source entries
    (source_regular regular found)]
  simp only [read_row_iff found]
  constructor
  · rintro ⟨children, ⟨_, rfl⟩, member⟩
    exact member
  · intro member
    refine ⟨_, ⟨fun nothing => ?_, rfl⟩, member⟩
    rw [nothing] at member
    simp [leavesNamed] at member

end Source

/-- Below a source without links, a smali file that its path leads to and that has a header which
can be described is found just if no directory between the source and it has the extension of smali
files. Its leaf then is in its place, under its name, and alone there where all names are texts. -/
theorem read_finds (fs : FileSystem) (regular : fs.Regular) (source : Path) (arrival : Arrival)
    (entries : List (Name × Node)) (found : fs.find source = .ok (arrival, .dir entries))
    (dirs : List Name) (name : Name) (bytes : List UInt8) (l : Leaf) (given : name ≠ [])
    (there : (Node.dir entries).at? (dirs ++ [smaliFile name]) = some (.file bytes))
    (led : fs.has ((dirs ++ [smaliFile name]).foldl Path.join source) = true)
    (accepted : Leaf.ofSmali? (Path.text name) (SourceFile.text ⟨bytes⟩) = some l) :
    (∃ children, read? fs source = some (.dir (rootNameOf fs source) children) ∧
      l ∈ leavesNamed children (dirs.map Path.text) (Path.text name) ∧
      ((Node.dir entries).Textual →
        leavesNamed children (dirs.map Path.text) (Path.text name) = [l])) ↔
    ∀ dir ∈ dirs, isSmali dir = false := by
  have fits : Path.fits ((dirs ++ [smaliFile name]).foldl Path.join source) := by
    obtain ⟨_, reaches, _⟩ := (has_iff regular.plain _).mp led
    exact reaches.fits
  have readable : Leaf.accepted? source (.dir entries) dirs name = some l := by
    rw [Leaf.accepted?, there]
    exact (if_pos ⟨given, fits⟩).trans accepted
  constructor
  · rintro ⟨children, read, member, _⟩
    obtain ⟨above, stem, texts, _, met⟩ :=
      (reads_iff_met found regular _ _ l).mp ⟨children, read, member⟩
    exact walks_into texts ((met_iff _ _ _ _ l).mp met).1
  · intro walkable
    have met := (met_iff source (.dir entries) dirs name l).mpr ⟨walkable, readable⟩
    obtain ⟨children, read, member⟩ :=
      (reads_iff_met found regular _ _ l).mpr ⟨dirs, name, rfl, rfl, met⟩
    refine ⟨children, read, member, fun textual => ?_⟩
    have some_met : Leaf.met? source (.dir entries) dirs name ≠ none := by simp [met]
    obtain ⟨above, stem⟩ := texts_of_met textual some_met
    rw [((read_row_iff found children).mp read).2,
      leaves_met _ _ _ _ (source_regular regular found) textual, above, stem, met]
    rfl

/-- A file two directories below the source `s`. -/
def nested (outer inner : String) : FileSystem where
  entries := [(Path.of "s", .dir [(Path.of outer, .dir [(Path.of inner, .dir [
    (Path.of "A.smali", .file (Request.facadeOf "only"))])])])]

theorem some_leaf : ∃ l, Leaf.ofSmali? ['A'] (SourceFile.text ⟨Request.facadeOf "only"⟩) = some l :=
  Option.isSome_iff_exists.mp (by decide +kernel)

/-- A name that is nothing but the extension has none. -/
theorem read_finds_bare : ∃ l children,
    Leaf.ofSmali? ['A'] (SourceFile.text ⟨Request.facadeOf "only"⟩) = some l ∧
      read? (nested "a" ".smali") (Path.of "s") = some (.dir ['s'] children) ∧
      leavesNamed children [['a'], ".smali".toList] ['A'] = [l] := by
  obtain ⟨l, accepted⟩ := some_leaf
  have regular : (nested "a" ".smali").Regular := by
    unfold FileSystem.Regular
    decide +kernel
  have led : (nested "a" ".smali").has (Path.of "s/a/.smali/A.smali") = true := by decide +kernel
  obtain ⟨children, read, _, one⟩ := (read_finds (nested "a" ".smali") regular (Path.of "s")
    ⟨[Path.of "s"], 40⟩ _ rfl [Path.of "a", Path.of ".smali"] (Path.of "A") _ l (by decide) rfl led
    accepted).mpr (by decide)
  exact ⟨l, children, accepted, read, one (by decide)⟩

/-- The walk takes the directory `x.smali` for a file that it cannot read. -/
theorem read_misses : (nested "x.smali" "a").Regular ∧
    (nested "x.smali" "a").isDir (Path.of "s") = true ∧
    (nested "x.smali" "a").read (Path.of "s/x.smali/a/A.smali") =
      .ok (Request.facadeOf "only") ∧
    (Leaf.ofSmali? ['A'] (SourceFile.text ⟨Request.facadeOf "only"⟩)).isSome = true ∧
    read? (nested "x.smali" "a") (Path.of "s") = none := by
  refine ⟨?_, by decide +kernel, by rfl, by decide +kernel, by rfl⟩
  unfold FileSystem.Regular
  decide +kernel

end SmaliReport.Tree
