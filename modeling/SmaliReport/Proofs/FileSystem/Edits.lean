import SmaliReport.Proofs.FileSystem.Directories

/-!
What changes do to directories as they are listed. A change at a place leaves all directories apart
from it entry by entry as they were, and of a directory that it lies in it leaves all entries but the
one that leads there. File systems stay regular.
-/

namespace SmaliReport

namespace Node

/-- A directory without its entry of this name. -/
def besides (name : Name) : Node → Node
  | .dir entries => .dir (entries.filter (·.1 ≠ name))
  | other => other

theorem filter_alter (name : Name) (change : Option Node → Option Node)
    (entries : List (Name × Node)) :
    (alter name change entries).filter (·.1 ≠ name) = entries.filter (·.1 ≠ name) := by
  induction entries with
  | nil => cases made : change none <;> simp [alter, made]
  | cons entry rest ih =>
    obtain ⟨other, node⟩ := entry
    by_cases same : other = name
    · subst same
      cases made : change (some node) <;> simp [alter, made]
    · simpa [alter, same] using ih

theorem lookup_filter (keep : Name → Bool) (entries : List (Name × Node)) (name : Name)
    (kept : keep name = true) :
    (entries.filter fun e => keep e.1).lookup name = entries.lookup name := by
  induction entries with
  | nil => rfl
  | cons entry rest ih =>
    obtain ⟨first, node⟩ := entry
    by_cases same : name = first
    · subst same
      simp [kept]
    · have apart : (name == first) = false := by simpa using same
      rw [List.lookup_cons, apart, List.filter_cons]
      split
      · rw [List.lookup_cons, apart, ih]
      · exact ih

/-- In a longer way the first name is of a directory in which the rest of the way is changed. -/
theorem alterAt_cons (change : Option Node → Option Node) (first second : Name) (rest : Place)
    (entries : List (Name × Node)) :
    alterAt change (first :: second :: rest) entries =
      alter first (inDir (alterAt change (second :: rest))) entries := rfl

theorem lookup_alter_inDir (name : Name) (change : List (Name × Node) → List (Name × Node))
    (entries : List (Name × Node)) :
    (alter name (inDir change) entries).lookup name = inDir change (entries.lookup name) :=
  lookup_alter_self name (inDir change) entries (.inl fun node _ => by cases node <;> rfl)

section Change

variable (change : Option Node → Option Node)

theorem at?_alterAt_apart (place q : Place) (entries : List (Name × Node)) (above : ¬ q <+: place)
    (below : ¬ place <+: q) :
    (Node.dir (alterAt change place entries)).at? q = (Node.dir entries).at? q := by
  induction place generalizing q entries with
  | nil => exact absurd List.nil_prefix below
  | cons name place ih =>
    cases q with
    | nil => exact absurd List.nil_prefix above
    | cons first q =>
      by_cases same : first = name
      · subst same
        rw [List.prefix_cons_inj] at above below
        cases place with
        | nil => exact absurd List.nil_prefix below
        | cons second place =>
          rw [alterAt_cons]
          simp only [at?, lookup_alter_inDir]
          cases entries.lookup first with
          | none => rfl
          | some node =>
            cases node with
            | dir inner => exact ih q inner above below
            | file bytes => rfl
            | link target => rfl
      · have other : (alterAt change (name :: place) entries).lookup first =
            entries.lookup first := by
          cases place with
          | nil => exact lookup_alter_of_ne name first change entries same
          | cons second place => exact lookup_alter_of_ne name first _ entries same
        simp only [at?, other]

theorem besides_alterAt (q : Place) (name : Name) (rest : Place) (entries : List (Name × Node)) :
    ((Node.dir (alterAt change (q ++ name :: rest) entries)).at? q).map (besides name) =
      ((Node.dir entries).at? q).map (besides name) := by
  induction q generalizing entries with
  | nil =>
    have shape : ∃ edit, alterAt change (name :: rest) entries = alter name edit entries := by
      cases rest with
      | nil => exact ⟨change, rfl⟩
      | cons second rest => exact ⟨_, alterAt_cons change name second rest entries⟩
    obtain ⟨edit, shape⟩ := shape
    simp only [List.nil_append, at?, Option.map_some, besides, shape, filter_alter]
  | cons first q ih =>
    have shape : alterAt change (first :: q ++ name :: rest) entries =
        alter first (inDir (alterAt change (q ++ name :: rest))) entries := by
      cases q <;> rfl
    rw [shape]
    simp only [at?, lookup_alter_inDir]
    cases entries.lookup first with
    | none => rfl
    | some node =>
      cases node with
      | dir inner => exact ih inner
      | file bytes => rfl
      | link target => rfl

end Change

theorem mem_alter {name : Name} {change : Option Node → Option Node}
    {entries : List (Name × Node)} {e : Name × Node} (member : e ∈ alter name change entries) :
    e ∈ entries ∨ (e.1 = name ∧ ∃ old, change old = some e.2 ∧
      ∀ node ∈ old, (name, node) ∈ entries) := by
  induction entries with
  | nil =>
    obtain ⟨node, made, rfl⟩ := List.mem_map.mp member
    exact .inr ⟨rfl, none, by simpa using made, nofun⟩
  | cons entry rest ih =>
    obtain ⟨other, node⟩ := entry
    rw [alter] at member
    split at member
    · rename_i same
      subst same
      rcases List.mem_append.mp member with first | later
      · obtain ⟨new, made, rfl⟩ := List.mem_map.mp first
        refine .inr ⟨rfl, some node, by simpa using made, fun old there => ?_⟩
        cases there
        exact List.mem_cons_self
      · exact .inl (List.mem_cons_of_mem _ later)
    · rcases List.mem_cons.mp member with rfl | later
      · exact .inl List.mem_cons_self
      · rcases ih later with there | ⟨same, old, made, there⟩
        · exact .inl (List.mem_cons_of_mem _ there)
        · exact .inr ⟨same, old, made, fun node at_old => List.mem_cons_of_mem _ (there node at_old)⟩

theorem nodup_alter (name : Name) (change : Option Node → Option Node)
    (entries : List (Name × Node)) (unique : (entries.map (·.1)).Nodup) :
    ((alter name change entries).map (·.1)).Nodup := by
  induction entries with
  | nil => cases made : change none <;> simp [alter, made]
  | cons entry rest ih =>
    obtain ⟨other, node⟩ := entry
    rw [List.map_cons, List.nodup_cons] at unique
    rw [alter]
    split
    · rename_i same
      subst same
      cases made : change (some node) with
      | none => exact unique.2
      | some new => exact List.nodup_cons.mpr unique
    · rename_i differs
      refine List.nodup_cons.mpr ⟨fun member => ?_, ih unique.2⟩
      obtain ⟨e, there, same⟩ := List.mem_map.mp member
      rcases mem_alter there with old | ⟨own, _⟩
      · exact unique.1 (List.mem_map.mpr ⟨e, old, same⟩)
      · exact differs (same.symm.trans own)

/-- The change makes regular nodes of regular nodes, and something new only under a proper name. -/
structure Sound (name : Name) (change : Option Node → Option Node) : Prop where
  regular : ∀ old, (∀ node ∈ old, node.Regular) → ∀ node ∈ change old, node.Regular
  named : change none = none ∨ ProperName name

theorem Regular.alter {name : Name} {change : Option Node → Option Node} (sound : Sound name change)
    {entries : List (Name × Node)} (regular : (Node.dir entries).Regular) :
    (Node.dir (alter name change entries)).Regular := by
  cases regular with
  | dir unique proper each =>
    refine .dir (nodup_alter name change entries unique) (fun e member => ?_) fun e member => ?_
    · rcases mem_alter member with old | ⟨same, old, made, there⟩
      · exact proper e old
      · rw [same]
        cases old with
        | none =>
          rcases sound.named with empty | named
          · rw [made] at empty
            cases empty
          · exact named
        | some node => exact proper (name, node) (there node rfl)
    · rcases mem_alter member with old | ⟨_, old, made, there⟩
      · exact each e old
      · exact sound.regular old (fun node at_old => each _ (there node at_old)) e.2 made

theorem Regular.alterAt {change : Option Node → Option Node} (above : Place) {name : Name}
    (sound : Sound name change) {entries : List (Name × Node)}
    (regular : (Node.dir entries).Regular) :
    (Node.dir (alterAt change (above ++ [name]) entries)).Regular := by
  induction above generalizing entries with
  | nil => exact regular.alter sound
  | cons first above ih =>
    have shape : Node.alterAt change (first :: above ++ [name]) entries =
        Node.alter first (inDir (Node.alterAt change (above ++ [name]))) entries := by
      cases above <;> rfl
    rw [shape]
    refine regular.alter ⟨fun old each node made => ?_, .inl rfl⟩
    cases old with
    | none => cases made
    | some before =>
      have regular_before := each before rfl
      cases before with
      | dir inner =>
        cases made
        exact ih regular_before
      | file bytes =>
        cases made
        exact regular_before
      | link target => cases regular_before

end Node

namespace Path

theorem mem_of_mem_piece {path : Path} {c : UInt8} :
    ∀ piece ∈ path.splitOn Path.slash, c ∈ piece → c ∈ path := by
  induction path with
  | nil => simp [List.splitOn_nil]
  | cons d rest ih =>
    rw [List.splitOn_cons_eq_if_modifyHead]
    intro piece member inner
    by_cases slash : d = Path.slash
    · rw [if_pos (by simpa using slash)] at member
      rcases List.mem_cons.mp member with rfl | later
      · cases inner
      · exact List.mem_cons_of_mem d (ih piece later inner)
    · rw [if_neg (by simpa using slash)] at member
      cases pieces : rest.splitOn Path.slash with
      | nil => exact absurd pieces (List.splitOn_ne_nil Path.slash rest)
      | cons first others =>
        rw [pieces] at ih member
        rcases List.mem_cons.mp member with rfl | later
        · rcases List.mem_cons.mp inner with rfl | deeper
          · exact List.mem_cons_self
          · exact List.mem_cons_of_mem d (ih first List.mem_cons_self deeper)
        · exact List.mem_cons_of_mem d (ih piece (List.mem_cons_of_mem first later) inner)

theorem mem_of_mem_steps {path : Path} {name : Name} {c : UInt8} (member : name ∈ steps path)
    (dot : name ≠ Path.dot) (inner : c ∈ name) : c ∈ path := by
  rcases List.mem_append.mp member with part | ending
  · exact mem_of_mem_piece name (List.mem_filter.mp part).1 inner
  · split at ending
    · exact absurd (List.mem_singleton.mp ending) dot
    · cases ending

end Path

namespace FileSystem

variable {fs mid later : FileSystem}

/-- The place for something new has a name that a file system takes. -/
theorem Reaches.new {path : Path} {place : Place} (reaches : fs.Reaches path place)
    (missing : fs.kind? place = none) :
    ∃ above name, place = above ++ [name] ∧ Node.ProperName name := by
  obtain ⟨front, name, above, steps, way, rfl, _, dot, dots⟩ :=
    go_missing (Path.steps_ne_nil path reaches.given) reaches.arrives missing
  refine ⟨above, name, rfl, ?_⟩
  have arrives := reaches.arrives
  rw [steps] at arrives
  have member : name ∈ Path.steps path := by simp [steps]
  have part : name ∈ Path.parts path := by
    rcases List.mem_append.mp member with part | ending
    · exact part
    · split at ending
      · exact absurd (List.mem_singleton.mp ending) dot
      · cases ending
  obtain ⟨last, again, taken⟩ := (go_concat_ok_iff _ _ _ _).mp arrives
  rcases step_ok_cases taken with ⟨same, _⟩ | ⟨same, _⟩ | ⟨_, _, short, _⟩
  · exact absurd same dot
  · exact absurd same dots
  · obtain ⟨given, slash⟩ := Path.mem_parts part
    exact ⟨⟨given, slash, fun nul => reaches.nul (Path.mem_of_mem_steps member dot nul), dot, dots⟩,
      short⟩

/-- What is at a place stays if something is put outside of it, over no directory. -/
theorem put_apart {place q : Place} {node : Node} (there : fs.kind? place ≠ none)
    (free : fs.kind? q ≠ some .dir) (apart : ¬ place <+: q) :
    (fs.put q node).node? place = fs.node? place := by
  refine Node.at?_alterAt_apart _ q place fs.entries apart ?_
  rintro ⟨more, rfl⟩
  cases more with
  | nil => exact apart (by simp)
  | cons first more => exact free (kind?_above fs q (first :: more) (by simp) there)

/-- New directories and files, put one after the other at such places, over nothing or a file. -/
inductive Edits (within : Place → Prop) (fs : FileSystem) : FileSystem → Prop where
  | refl : Edits within fs fs
  | put {mid : FileSystem} {above : Place} {name : Name} {node : Node} :
      Edits within fs mid → Node.ProperName name → node.Regular →
      mid.kind? (above ++ [name]) ≠ some .dir → within (above ++ [name]) →
      Edits within fs (mid.put (above ++ [name]) node)

namespace Edits

variable {within : Place → Prop}

theorem mono {wider : Place → Prop} (edits : Edits within fs later)
    (wide : ∀ q, within q → wider q) : Edits wider fs later := by
  induction edits with
  | refl => exact .refl
  | put _ named regular free inside ih => exact ih.put named regular free (wide _ inside)

theorem trans (first : Edits within fs mid) (second : Edits within mid later) :
    Edits within fs later := by
  induction second with
  | refl => exact first
  | put _ named regular free inside ih => exact ih.put named regular free inside

theorem regular (edits : Edits within fs later) (regular : (Node.dir fs.entries).Regular) :
    (Node.dir later.entries).Regular := by
  induction edits with
  | refl => exact regular
  | put _ named regular_node _ _ ih =>
    refine ih.alterAt _ ⟨fun old each node made => ?_, .inr named⟩
    cases made
    exact regular_node

/-- What the places of the changes lie apart from is not changed. -/
theorem node?_eq (edits : Edits within fs later) {place : Place} (there : fs.kind? place ≠ none)
    (apart : ∀ q, within q → ¬ place <+: q) : later.node? place = fs.node? place := by
  induction edits with
  | refl => rfl
  | put _ _ _ free inside ih =>
    rw [← ih]
    exact put_apart (by rwa [kind?, ih]) free (apart _ inside)

/-- Of a directory that changes lie in, only the entry that leads to them is changed. -/
theorem besides_eq (edits : Edits within fs later) {place : Place} {name : Name}
    (there : fs.kind? place ≠ none)
    (near : ∀ q, within q → place ++ [name] <+: q ∨ ¬ place <+: q) :
    (later.node? place).map (Node.besides name) = (fs.node? place).map (Node.besides name) := by
  induction edits with
  | refl => rfl
  | @put mid above last node _ _ _ free inside ih =>
    rw [← ih]
    rcases near _ inside with ⟨rest, split⟩ | apart
    · rw [← split, List.append_assoc]
      exact Node.besides_alterAt _ place name rest mid.entries
    · have there_mid : mid.kind? place ≠ none := by
        intro missing
        rw [(kind?_eq_none_iff mid place).mp missing] at ih
        exact there ((kind?_eq_none_iff fs place).mpr (Option.map_eq_none_iff.mp ih.symm))
      rw [put_apart there_mid free apart]

/-- New directories made in two runs are new directories of both. -/
theorem made_trans (first : Edits (fun q => fs.kind? q = none ∧ mid.kind? q = some .dir) fs mid)
    (adds : Adds fs mid)
    (second : Edits (fun q => mid.kind? q = none ∧ later.kind? q = some .dir) mid later)
    (adds_later : Adds mid later) :
    Edits (fun q => fs.kind? q = none ∧ later.kind? q = some .dir) fs later := by
  refine (first.mono fun q new => ⟨new.1, adds_later.keeps.dirs q new.2⟩).trans
    (second.mono fun q new => ⟨?_, new.2⟩)
  rcases adds.kinds q with same | ⟨missing, _⟩
  · exact same ▸ new.1
  · exact missing

end Edits

theorem makeDir_edits (plain : Plain fs) {path : Path} (made : fs.makeDir path = .ok later) :
    Edits (fun q => fs.kind? q = none ∧ later.kind? q = some .dir) fs later := by
  unfold makeDir at made
  simp only at made
  generalize (if (path.reverse.dropWhile (· = Path.slash)).reverse = [] then path
    else (path.reverse.dropWhile (· = Path.slash)).reverse) = used at made
  cases freed : fs.free used with
  | error e =>
    rw [freed] at made
    cases made
  | ok place =>
    rw [freed] at made
    cases made
    obtain ⟨reaches, missing⟩ := (free_ok_iff plain used place).mp freed
    obtain ⟨above, name, rfl, named⟩ := reaches.new missing
    have sets := free_sets plain freed
    refine Edits.refl.put named (.dir List.nodup_nil nofun nofun) (by simp [missing]) ⟨missing, ?_⟩
    rw [sets.kinds, if_pos rfl]

theorem ensureDir_edits (plain : Plain fs) {path : Path} {result : Except FileError Unit}
    (ran : (ensureDir path).run fs = (result, later)) :
    Edits (fun q => fs.kind? q = none ∧ later.kind? q = some .dir) fs later := by
  rcases run_ensureDir_cases ran with ⟨_, made⟩ | ⟨rfl, _⟩
  · exact makeDir_edits plain made
  · exact .refl

theorem makeDirsUpTo_edits (depth : Nat) {path : Path} (tidy : Path.Tidy path) (plain : Plain fs)
    {result : Except FileError Unit} (ran : (makeDirsUpTo depth path).run fs = (result, later)) :
    Edits (fun q => fs.kind? q = none ∧ later.kind? q = some .dir) fs later := by
  induction depth generalizing later path result with
  | zero =>
    rcases makeDirsUpTo_cases ran with once | ⟨_, ⟨_, rfl⟩ | ⟨_, _, deeper, _⟩⟩
    · exact ensureDir_edits plain once
    · exact .refl
    · cases deeper
  | succ depth ih =>
    rcases makeDirsUpTo_cases ran with
      once | ⟨_, ⟨_, rfl⟩ | ⟨smaller, above, length, parent, given, up⟩⟩
    · exact ensureDir_edits plain once
    · exact .refl
    · cases length
      have tidy_above := (Path.parent?_spec parent).2.2.1
      rcases up with ⟨e, failed, _⟩ | ⟨mid, up, last⟩
      · exact ih tidy_above failed
      · have adds := (makeDirsUpTo_grown depth tidy_above plain up).1.adds
        have plain_mid := adds.plain plain
        exact (ih tidy_above up).made_trans adds (ensureDir_edits plain_mid last)
          (ensureDir_grown plain_mid tidy last).1.adds

end FileSystem

end SmaliReport
