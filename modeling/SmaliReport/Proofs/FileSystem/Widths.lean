import SmaliReport.Proofs.FileSystem.Kinds
import SmaliReport.Proofs.FileSystem.Names

/-!
How many bytes a path has, as an access refuses one that has too many. A path by way of several
names is as wide as the first path and the names make it, and a row of slashes is a path to the root
of any width.
-/

namespace SmaliReport.Path

/-- The bytes that a path has in front of a name joined to it. -/
def width (path : Path) : Nat := (join path []).length

/-- A path to the root of this width. -/
def slashes (width : Nat) : Path := List.replicate width Path.slash

theorem join_nil (path : Path) : join path [] =
    if path = [] ∨ [Path.slash].isSuffixOf path then path else path ++ [Path.slash] := by
  rw [join, if_neg (by decide), List.append_nil]

theorem join_relative (path : Path) (name : Name) (relative : isAbsolute name = false) :
    join path name = join path [] ++ name := by
  rw [join_nil, join, if_neg (by simp [relative])]
  split
  · rfl
  · rw [List.append_assoc, List.singleton_append]

theorem fits_join_iff (path : Path) (name : Name) (slash : Path.slash ∉ name) :
    fits (join path name) ↔ width path + name.length < 4096 := by
  rw [fits, join_relative path name (relative_name name slash), List.length_append, width]
  exact decide_eq_true_iff

theorem fits_join_congr {path other : Path} (same : width path = width other) {name : Name}
    (slash : Path.slash ∉ name) : fits (join path name) ↔ fits (join other name) := by
  rw [fits_join_iff path name slash, fits_join_iff other name slash, same]

theorem width_join (path : Path) (name : Name) (given : name ≠ []) (slash : Path.slash ∉ name) :
    width (join path name) = width path + name.length + 1 := by
  have ends : join (join path name) [] = join path name ++ [Path.slash] := by
    have bare : ¬(join path name = [] ∨ [Path.slash].isSuffixOf (join path name)) := by
      rw [join_bare path name given slash, join_relative path name (relative_name name slash)]
      simp [given]
    rw [join_nil, if_neg bare]
  rw [width, ends, List.length_append, join_relative path name (relative_name name slash),
    List.length_append]
  rfl

theorem width_join_congr {path other : Path} (same : width path = width other) {name : Name}
    (given : name ≠ []) (slash : Path.slash ∉ name) :
    width (join path name) = width (join other name) := by
  rw [width_join path name given slash, width_join other name given slash, same]

theorem width_pos {path : Path} (given : path ≠ []) : 0 < width path := by
  cases path with
  | nil => exact absurd rfl given
  | cons c rest =>
    have shape : ∃ more, join (c :: rest) [] = [c] ++ more := by
      rw [join_nil]
      split
      · exact ⟨rest, rfl⟩
      · exact ⟨rest ++ [Path.slash], rfl⟩
    obtain ⟨more, shape⟩ := shape
    rw [width, shape]
    exact Nat.zero_lt_succ more.length

theorem length_slashes (width : Nat) : (slashes width).length = width := List.length_replicate

theorem parts_slashes_eq_nil (width : Nat) : parts (slashes width) = [] :=
  parts_slashes [] (slashes width) fun _ member => List.eq_of_mem_replicate member

theorem slashes_ne_nil {width : Nat} (positive : 0 < width) : slashes width ≠ [] := by
  rw [slashes, ne_eq, List.replicate_eq_nil_iff]
  omega

theorem isSuffixOf_slashes {width : Nat} (positive : 0 < width) :
    [Path.slash].isSuffixOf (slashes width) = true := by
  rw [isSuffixOf_slash]
  refine ⟨slashes (width - 1), ?_⟩
  rw [slashes, slashes, ← List.replicate_succ', Nat.sub_add_cancel positive]

theorem width_slashes {n : Nat} (positive : 0 < n) : width (slashes n) = n := by
  rw [width, join_nil, if_pos (.inr (isSuffixOf_slashes positive)), length_slashes]

theorem isAbsolute_slashes {width : Nat} (positive : 0 < width) : isAbsolute (slashes width) := by
  cases width with
  | zero => cases positive
  | succ width => rfl

theorem below_concat (dirs : List Name) (name : Name) (path : Path) :
    (dirs ++ [name]).foldl join path = join (dirs.foldl join path) name :=
  List.foldl_append

section Below

variable {names : List Name} (each : ∀ name ∈ names, Node.ProperName name)

include each

theorem width_below {path other : Path} (same : width path = width other) :
    width (names.foldl join path) = width (names.foldl join other) := by
  induction names generalizing path other with
  | nil => exact same
  | cons name rest ih =>
    rw [List.forall_mem_cons] at each
    apply ih each.2
    exact width_join_congr same each.1.nonempty each.1.slash

theorem isAbsolute_below (path : Path) : isAbsolute (names.foldl join path) = isAbsolute path := by
  induction names generalizing path with
  | nil => rfl
  | cons name rest ih =>
    rw [List.forall_mem_cons] at each
    rw [List.foldl_cons, ih each.2, isAbsolute_join path name each.1.slash]

theorem parts_below (path : Path) : parts (names.foldl join path) = parts path ++ names := by
  induction names generalizing path with
  | nil => exact (List.append_nil _).symm
  | cons name rest ih =>
    rw [List.forall_mem_cons] at each
    rw [List.foldl_cons, ih each.2, parts_join path name each.1.nonempty each.1.slash,
      ← List.append_cons]

theorem nul_below {path : Path} (nul : 0 ∉ path) : 0 ∉ names.foldl join path := by
  induction names generalizing path with
  | nil => exact nul
  | cons name rest ih =>
    rw [List.forall_mem_cons] at each
    apply ih each.2
    obtain ⟨front, front_eq, shape⟩ := join_shape path name each.1.slash
    rw [shape]
    rcases front_eq with rfl | rfl <;> simp [nul, each.1.nul]

end Below

section Entry

variable {dirs : List Name} {name : Name} (each : ∀ name ∈ dirs, Node.ProperName name)
  (named : Node.ProperName name)

include each named

theorem steps_entry (path : Path) :
    steps ((dirs ++ [name]).foldl join path) = parts path ++ (dirs ++ [name]) := by
  rw [below_concat, steps_join _ name named.nonempty named.slash, parts_below each, List.append_assoc]

theorem fits_entry {path other : Path} (same : width path = width other) :
    fits ((dirs ++ [name]).foldl join path) ↔ fits ((dirs ++ [name]).foldl join other) := by
  rw [below_concat, below_concat]
  exact fits_join_congr (width_below each same) named.slash

end Entry

end SmaliReport.Path
