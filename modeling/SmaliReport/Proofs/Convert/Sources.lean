import SmaliReport.Convert
import SmaliReport.Proofs.FileSystem.Change
import SmaliReport.Proofs.Tree.Collected
import SmaliReport.Proofs.Tree.Merge

/-!
The directories a conversion walks, the files it accepts below them, and the tree it makes of
these. Where several roots have a file at one place, the one of the last root counts.
-/

namespace SmaliReport

open FileSystem

def FileSystem.Regular (fs : FileSystem) : Prop := (Node.dir fs.entries).Regular

theorem FileSystem.Regular.plain {fs : FileSystem} (regular : fs.Regular) : Plain fs := by
  intro place target linked
  rw [kind?] at linked
  obtain ⟨node, there, kind⟩ := Option.map_eq_some_iff.mp linked
  cases Node.Regular.at? regular place there with
  | file bytes => cases kind
  | dir unique proper each => cases kind

namespace Request

/-- A directory whose name starts like a root's. -/
def isRoot (entry : Name × Node) : Bool :=
  Tree.rootName.isPrefixOf (Path.text entry.1) && entry.2.kind = .dir

/-- The directories that are walked, each with the path it is walked by. -/
def walked (r : Request) (fs : FileSystem) : List (Path × Node) :=
  match fs.find r.source with
  | .ok (_, .dir entries) =>
    if r.isMultiRoot fs then
      (entries.filter isRoot).map fun entry => (Path.join r.source entry.1, entry.2)
    else [(r.source, .dir entries)]
  | _ => []

/-- The leaf of the accepted file at a place below the last root that has one there. -/
def accepted? (r : Request) (fs : FileSystem) (dirs : List Name) (name : Name) : Option Leaf :=
  ((r.walked fs).filterMap fun root => Leaf.accepted? root.1 root.2 dirs name).getLast?

end Request

namespace Tree

/-- What is read of a node that is walked by this path. -/
def walk (path : Path) : Node → List Tree
  | .dir entries => if Path.fits path then ofEntries unlinked [] path entries else []
  | _ => []

section Walk

variable (path : Path) {node : Node} (regular : node.Regular)

include regular

theorem sound_walk : ∀ t ∈ walk path node, Filled t ∧ Proper t := by
  cases regular with
  | file bytes => exact List.forall_mem_nil _
  | dir unique proper each =>
    rw [walk]
    split
    · exact sound_ofEntries _ _ _ _ proper each
    · exact List.forall_mem_nil _

/-- The leaves of a walk are those of the accepted files that it meets. -/
theorem mem_walk_iff (dirs : List Text) (name : Text) (l : Leaf) :
    l ∈ leavesNamed (walk path node) dirs name ↔
      ∃ above stem, above.map Path.text = dirs ∧ Path.text stem = name ∧
        Leaf.met? path node above stem = some l := by
  cases regular with
  | file bytes => simp [walk, leavesNamed, Leaf.met?, accepted_file]
  | dir unique proper each =>
    rw [walk]
    split
    · exact mem_leavesNamed_iff _ _ _ _ (.dir unique proper each) dirs name l
    · rename_i long
      simp [leavesNamed, Leaf.met?,
        accepted_long path _ (.dir unique proper each) _ _ (Bool.eq_false_of_not_eq_true long)]

theorem length_walk_le_one (dirs : List Text) (name : Text)
    (alone : (metAs path node dirs name).Subsingleton) :
    (leavesNamed (walk path node) dirs name).length ≤ 1 := by
  cases regular with
  | file bytes => simp [walk, leavesNamed]
  | dir unique proper each =>
    rw [walk]
    split
    · exact length_leavesNamed_le_one _ _ _ _ (.dir unique proper each) dirs name alone
    · simp [leavesNamed]

/-- Where all names are texts, each of them is at its own place. -/
theorem leaves_walk (textual : node.Textual) (dirs : List Text) (name : Text) :
    leavesNamed (walk path node) dirs name =
      (Leaf.met? path node (dirs.map Path.ofText) (Path.ofText name)).toList := by
  cases regular with
  | file bytes => simp [walk, leavesNamed, Leaf.met?, accepted_file]
  | dir unique proper each =>
    rw [walk]
    split
    · exact leaves_met _ _ _ _ (.dir unique proper each) textual dirs name
    · rename_i long
      simp [leavesNamed, Leaf.met?,
        accepted_long path _ (.dir unique proper each) _ _ (Bool.eq_false_of_not_eq_true long)]

end Walk

theorem leavesNamed_addAllTo (row : List Tree) (dirs : List Text) (name : Text) :
    leavesNamed (addAllTo row []) dirs name = leavesNamed row dirs name := by
  simp only [leavesNamed, rowAt_addAllTo, leaves_addAllTo]

/-- The children of what is read by a path. -/
def rowOf (fs : FileSystem) (path : Path) : List Tree := (read? fs path).toList.flatMap children

theorem rowOf_dir {fs : FileSystem} {path : Path} {arrival : Arrival}
    {entries : List (Name × Node)} (found : fs.find path = .ok (arrival, .dir entries)) :
    rowOf fs path = ofEntries (ofLink? fs arrival.links) arrival.place path entries := by
  rw [rowOf, read?, found]
  simp only [dir?]
  cases ofEntries (ofLink? fs arrival.links) arrival.place path entries with
  | nil => rfl
  | cons t row => simp [children]

theorem rowOf_file {fs : FileSystem} {path : Path} {arrival : Arrival} {bytes : List UInt8}
    (found : fs.find path = .ok (arrival, .file bytes)) : rowOf fs path = [] := by
  rw [rowOf, read?, found]
  simp only
  cases Leaf.ofFile? ((Path.fileName? path).getD []) bytes <;> rfl

theorem rowOf_error {fs : FileSystem} {path : Path} {e : FileError}
    (failed : fs.find path = .error e) : rowOf fs path = [] := by
  rw [rowOf, read?, failed]
  rfl

theorem roots_of_found {fs : FileSystem} {source : Path} {arrival : Arrival}
    {entries : List (Name × Node)} (found : fs.find source = .ok (arrival, .dir entries)) :
    roots fs source = .ok ((entries.filter fun e => rootName.isPrefixOf (Path.text e.1)).map
      fun e => Path.join source e.1) := by
  have names : (entries.map (·.1)).filter (fun name => rootName.isPrefixOf (Path.text name)) =
      (entries.filter fun e => rootName.isPrefixOf (Path.text e.1)).map (·.1) := by
    rw [List.filter_map]
    rfl
  simp only [roots, list, found, bind, Except.bind, FileError.during, Except.mapError, names,
    List.map_map]
  rfl

end Tree

section Source

variable {fs : FileSystem} (regular : fs.Regular) {source : Path} {arrival : Arrival}
  {entries : List (Name × Node)} (found : fs.find source = .ok (arrival, .dir entries))

include regular found

theorem source_regular : (Node.dir entries).Regular :=
  Node.Regular.at? regular arrival.place ((find_ok_iff regular.plain _ _ _).mp found).2

theorem find_join {name : Name} {node : Node} (there : entries.lookup name = some node) :
    fs.find (Path.join source name) = .ok (⟨arrival.place ++ [name], 40⟩, node) ↔
      Path.fits (Path.join source name) := by
  have plain := regular.plain
  obtain ⟨⟨reaches, links⟩, at_place⟩ := (find_ok_iff plain _ _ _).mp found
  have named : Node.ProperName name :=
    (source_regular regular found).proper [name]
      ((Node.at?_child entries name).trans there) name List.mem_cons_self
  rw [find_ok_iff plain]
  constructor
  · rintro ⟨⟨reaches, _⟩, _⟩
    exact reaches.fits
  · intro fits
    have below : fs.node? (arrival.place ++ [name]) = some node := by
      rw [node?, Node.at?_append, ← node?, at_place]
      exact (Node.at?_child entries name).trans there
    have dir : fs.kind? arrival.place = some .dir := (kind?_eq_dir_iff fs _).mpr ⟨entries, at_place⟩
    exact ⟨⟨reaches.below named dir fits, rfl⟩, below⟩

theorem has_join {name : Name} (named : Node.ProperName name) :
    fs.has (Path.join source name) = true ↔
      Path.fits (Path.join source name) = true ∧ (entries.lookup name).isSome := by
  have plain := regular.plain
  constructor
  · intro there
    obtain ⟨place, reaches, there⟩ := (has_iff plain _).mp there
    obtain ⟨⟨leads, _⟩, at_place⟩ := (find_ok_iff plain _ _ _).mp found
    obtain ⟨above, again, taken⟩ := reaches.above leads.given named.nonempty named.slash
    obtain rfl := leads.unique again
    obtain rfl := step_named named.dot named.dots taken
    have below : fs.node? (arrival.place ++ [name]) = entries.lookup name := by
      rw [node?, Node.at?_append, ← node?, at_place]
      exact Node.at?_child entries name
    rw [kind?, below] at there
    exact ⟨reaches.fits, by simpa [Option.isSome_iff_ne_none] using there⟩
  · rintro ⟨fits, there⟩
    obtain ⟨node, there⟩ := Option.isSome_iff_exists.mp there
    rw [has, (find_join regular found there).mpr fits]
    rfl

/-- Of an entry the same is read by its path as in a walk of what it is. -/
theorem rowOf_join {name : Name} {node : Node} (there : entries.lookup name = some node) :
    Tree.rowOf fs (Path.join source name) = Tree.walk (Path.join source name) node := by
  have regular_node :=
    (source_regular regular found).at? [name] ((Node.at?_child entries name).trans there)
  by_cases fits : Path.fits (Path.join source name)
  · have root := (find_join regular found there).mpr fits
    cases regular_node with
    | file bytes => exact Tree.rowOf_file root
    | dir unique proper each =>
      rw [Tree.rowOf_dir root, Tree.ofEntries_linked _ _ [] _ _ each, Tree.walk, if_pos fits]
  · have nothing : Tree.walk (Path.join source name) node = [] := by
      cases node <;> simp [Tree.walk, fits]
    rw [nothing]
    cases failed : fs.find (Path.join source name) with
    | error e => exact Tree.rowOf_error failed
    | ok pair =>
      exact absurd ((find_ok_iff regular.plain _ pair.1 pair.2).mp failed).1.1.fits fits

end Source

namespace Request

variable {fs : FileSystem} (r : Request)

def treeName (fs : FileSystem) : Text :=
  if r.isMultiRoot fs then Tree.rootName else Tree.rootNameOf fs r.source

/-- The children of the tree that is made of the directories that are walked. -/
def row (fs : FileSystem) : List Tree :=
  let found := (r.walked fs).flatMap fun root => Tree.walk root.1 root.2
  if r.isMultiRoot fs then Tree.addAllTo found [] else found

theorem flatMap_filterMap_read (paths : List Path) :
    (paths.filterMap (Tree.read? fs)).flatMap Tree.children = paths.flatMap (Tree.rowOf fs) := by
  induction paths with
  | nil => rfl
  | cons path paths ih =>
    rw [List.filterMap_cons, List.flatMap_cons, ← ih, Tree.rowOf]
    cases Tree.read? fs path <;> simp

theorem flatMap_filter {α β : Type} (keep : α → Bool) (part : α → List β) (l : List α) :
    (l.filter keep).flatMap part = l.flatMap fun a => if keep a then part a else [] := by
  induction l with
  | nil => rfl
  | cons a l ih =>
    rw [List.filter_cons, List.flatMap_cons, ← ih]
    cases keep a <;> rfl

/-- Of roots that are no directories nothing is read. -/
theorem flatMap_roots (entries : List (Name × Node)) (path : Name → Path) :
    (entries.filter isRoot).flatMap (fun e => Tree.walk (path e.1) e.2) =
      (entries.filter fun e => Tree.rootName.isPrefixOf (Path.text e.1)).flatMap fun e =>
        Tree.walk (path e.1) e.2 := by
  rw [flatMap_filter, flatMap_filter]
  refine List.flatMap_congr fun e _ => ?_
  obtain ⟨name, node⟩ := e
  cases node <;> simp [isRoot, Node.kind, Tree.walk]

theorem find_of_walked {root : Path × Node} (member : root ∈ r.walked fs) :
    ∃ arrival entries, fs.find r.source = .ok (arrival, .dir entries) := by
  unfold walked at member
  split at member
  · rename_i arrival entries found
    exact ⟨arrival, entries, found⟩
  · cases member

theorem walked_roots {arrival : Arrival} {entries : List (Name × Node)}
    (found : fs.find r.source = .ok (arrival, .dir entries)) (multi : r.isMultiRoot fs = true) :
    r.walked fs = (entries.filter isRoot).map fun e => (Path.join r.source e.1, e.2) := by
  simp [Request.walked, found, multi]

theorem walked_source {arrival : Arrival} {entries : List (Name × Node)}
    (found : fs.find r.source = .ok (arrival, .dir entries)) (single : r.isMultiRoot fs = false) :
    r.walked fs = [(r.source, .dir entries)] := by
  simp [Request.walked, found, single]

theorem tree_row (regular : fs.Regular) (directory : fs.isDir r.source = true) :
    r.tree? fs = .ok (Tree.dir? (r.treeName fs) (r.row fs)) := by
  obtain ⟨arrival, entries, found⟩ := find_of_isDir directory
  have regular_source := source_regular regular found
  unfold tree? treeName row
  cases multi : r.isMultiRoot fs with
  | false =>
    have fits := ((find_ok_iff regular.plain _ _ _).mp found).1.1.fits
    rw [r.walked_source found multi]
    simp only [Bool.false_eq_true, if_false, Tree.read?, found, List.flatMap_cons, List.flatMap_nil,
      List.append_nil, Tree.walk, if_pos fits, Tree.ofEntries_linked _ _ [] _ _ regular_source.each]
  | true =>
    have rows : ∀ e ∈ entries.filter fun e => Tree.rootName.isPrefixOf (Path.text e.1),
        Tree.rowOf fs (Path.join r.source e.1) = Tree.walk (Path.join r.source e.1) e.2 :=
      fun e member => rowOf_join regular found
        (Node.lookup_of_mem regular_source.unique (List.mem_filter.mp member).1)
    rw [r.walked_roots found multi]
    simp only [if_true, Tree.roots_of_found found, Except.map, Tree.readMerged?,
      Tree.mergeRoots_eq_dir?, flatMap_filterMap_read, List.flatMap_map, List.flatMap_congr rows,
      flatMap_roots]

theorem leaves_row (dirs : List Text) (name : Text) :
    Tree.leavesNamed (r.row fs) dirs name =
      (r.walked fs).flatMap fun root => Tree.leavesNamed (Tree.walk root.1 root.2) dirs name := by
  unfold row
  simp only
  split
  · rw [Tree.leavesNamed_addAllTo, Tree.leavesNamed_flatMap]
  · rw [Tree.leavesNamed_flatMap]

section Walked

variable (regular : fs.Regular)

include regular

theorem regular_walked : ∀ root ∈ r.walked fs, root.2.Regular := by
  unfold walked
  split
  · rename_i arrival entries found
    have regular_source := source_regular regular found
    split
    · intro root member
      obtain ⟨e, there, rfl⟩ := List.mem_map.mp member
      exact regular_source.each e (List.mem_filter.mp there).1
    · exact List.forall_mem_singleton.mpr regular_source
  · exact List.forall_mem_nil _

theorem textual_walked (textual : (Node.dir fs.entries).Textual) :
    ∀ root ∈ r.walked fs, root.2.Textual := by
  unfold walked
  split
  · rename_i arrival entries found
    have there := ((find_ok_iff regular.plain _ _ _).mp found).2
    have textual_source : (Node.dir entries).Textual := textual.inner there
    split
    · intro root member
      obtain ⟨e, there, rfl⟩ := List.mem_map.mp member
      have listed := Node.lookup_of_mem (source_regular regular found).unique
        (List.mem_filter.mp there).1
      exact textual_source.inner ((Node.at?_child entries e.1).trans listed)
    · exact List.forall_mem_singleton.mpr textual_source
  · exact List.forall_mem_nil _

theorem sound_row : (∀ t ∈ r.row fs, Tree.Proper t) ∧ ∀ dirs name,
    name ∈ Tree.dirNames (Tree.rowAt dirs (r.row fs)) ↔
      ∃ more last, Tree.leavesNamed (r.row fs) (dirs ++ name :: more) last ≠ [] := by
  have sound : ∀ t ∈ (r.walked fs).flatMap fun root => Tree.walk root.1 root.2,
      Tree.Filled t ∧ Tree.Proper t := by
    intro t member
    obtain ⟨root, there, member⟩ := List.mem_flatMap.mp member
    exact Tree.sound_walk root.1 (r.regular_walked regular root there) t member
  have dirs := Tree.dirs_of_filled _ fun t member => (sound t member).1
  unfold row
  simp only
  split
  · refine ⟨Tree.proper_addAllTo _ [] (fun t member => (sound t member).2) (List.forall_mem_nil _),
      fun above name => ?_⟩
    rw [Tree.rowAt_addAllTo, Tree.mem_dirNames_addAllTo, dirs]
    simp only [Tree.leavesNamed_addAllTo]
  · exact ⟨fun t member => (sound t member).2, dirs⟩

end Walked

end Request

end SmaliReport
