import Mathlib.Data.List.Nodup
import SmaliReport.Proofs.FileSystem.Widths
import SmaliReport.Proofs.Tree.Listing

/-!
Which trees can be written where nothing is: those in which each directory has different names for
its directories, none of them the name of one of its reports, and of which no path is too long.
-/

namespace SmaliReport.Tree

open FileSystem

/-- A file system has room for each of the names. -/
inductive Nameable : Tree → Prop where
  | leaf {l : Leaf} : '/' ∉ l.name → '\x00' ∉ l.name → (Text.toUtf8 l.file).length ≤ 255 →
      Nameable (.leaf l)
  | dir {name : Text} {children : List Tree} :
      Node.ProperName (Path.ofText name) → (∀ t ∈ children, Nameable t) →
        Nameable (.dir name children)

/-- No directory has two directories of one name, or a directory with the name of a report. -/
inductive Separate : Tree → Prop where
  | leaf (l : Leaf) : Separate (.leaf l)
  | dir (name : Text) {children : List Tree} : (dirNames children).Nodup →
      (∀ l, .leaf l ∈ children → l.file ∉ dirNames children) → (∀ t ∈ children, Separate t) →
        Separate (.dir name children)

/-- No path that the tree is written to from here is too long. -/
inductive Fitting : Path → Tree → Prop where
  | leaf {parent : Path} {l : Leaf} :
      Path.fits (Path.join parent (Path.ofText l.file)) → Fitting parent (.leaf l)
  | dir {parent : Path} {name : Text} {children : List Tree} :
      Path.fits (Path.join parent (Path.ofText name)) →
        (∀ t ∈ children, Fitting (Path.join parent (Path.ofText name)) t) →
          Fitting parent (.dir name children)

theorem Nameable.proper_file {l : Leaf} (nameable : Nameable (.leaf l)) :
    Node.ProperName (Path.ofText l.file) := by
  cases nameable with
  | leaf slash nul short =>
    have nul_file : 0 ∉ Path.ofText l.file := by
      rw [Path.nul_mem_ofText, Leaf.file, List.mem_append, not_or]
      exact ⟨nul, by decide⟩
    exact ⟨⟨l.file_given, l.slash_file slash, nul_file, l.file_ne_dots.1, l.file_ne_dots.2⟩, short⟩

theorem Nameable.proper {t : Tree} (nameable : Nameable t) : Proper t := by
  induction nameable with
  | leaf slash _ _ => exact .leaf slash
  | dir named _ ih => exact .dir named.toPlainName ih

theorem Fitting.of_width {parent other : Path} {t : Tree}
    (same : Path.width parent = Path.width other) (nameable : Nameable t)
    (fitting : Fitting parent t) : Fitting other t := by
  induction fitting generalizing other with
  | leaf fits => exact .leaf ((Path.fits_join_congr same nameable.proper_file.slash).mp fits)
  | dir fits _ ih =>
    cases nameable with
    | dir named each =>
      refine .dir ((Path.fits_join_congr same named.slash).mp fits) fun t member => ?_
      exact ih t member (Path.width_join_congr same named.nonempty named.slash) (each t member)

theorem Fitting.fits {parent : Path} {t : Tree} (fitting : Fitting parent t)
    (nameable : Nameable t) : Path.fits parent := by
  cases fitting with
  | leaf fits => exact Path.fits_join parent _ nameable.proper_file.slash fits
  | dir fits _ =>
    cases nameable with
    | dir named _ => exact Path.fits_join parent _ named.slash fits

theorem fits_of_runs {fs later : FileSystem} {parent : Path} {t : Tree} (nameable : Nameable t)
    (plain : Plain fs) (ran : Runs (write parent t) fs () later) : Path.fits parent := by
  cases t with
  | leaf l =>
    obtain ⟨_, reaches, _⟩ := write_sets plain ((runs_change_iff _ _ _ fs later).mp ran)
    exact Path.fits_join parent _ nameable.proper_file.slash reaches.fits
  | dir name children =>
    cases nameable with
    | dir named _ =>
      obtain ⟨_, mid, made, _⟩ := (runs_bind_iff _ _ fs later ()).mp ran
      rw [runs_change_iff] at made
      have tidy := Path.join_bare parent _ named.nonempty named.slash
      obtain ⟨_, reaches, _⟩ := makeDir_sets plain (.inl tidy) made
      exact Path.fits_join parent _ named.slash reaches.fits

theorem marks_flatMap (ts : List Tree) (dirs : List Name) (name : Name) :
    marks ts dirs name = ts.flatMap fun t => marks [t] dirs name := by
  induction ts with
  | nil => simp [marks]
  | cons t ts ih => rw [marks_cons, ih, List.flatMap_cons]

theorem puts_sublist {before : Option Kind} {kinds fewer : List Kind} (puts : Puts before kinds)
    (part : fewer.Sublist kinds) : Puts before fewer := by
  rw [puts_iff] at puts ⊢
  rcases puts with rfl | ⟨rfl, free⟩ | ⟨free, files⟩
  · exact .inl (List.sublist_nil.mp part)
  · rcases List.sublist_singleton.mp part with rfl | rfl
    · exact .inl rfl
    · exact .inr (.inl ⟨rfl, free⟩)
  · exact .inr (.inr ⟨free, fun kind member => files kind (part.subset member)⟩)

/-- Below a directory that has its name for itself, only its own children are written. -/
theorem marks_in_dir {ts : List Tree} (unique : (dirNames ts).Nodup) {first : Text}
    {children : List Tree} (member : .dir first children ∈ ts) (dirs : List Name) (name : Name) :
    marks ts (Path.ofText first :: dirs) name =
      marks [.dir first children] (Path.ofText first :: dirs) name := by
  obtain ⟨front, back, rfl⟩ := List.append_of_mem member
  have others : first ∉ dirNames front ∧ first ∉ dirNames back := by
    simp only [dirNames, List.filterMap_append, List.filterMap_cons, dirName?] at unique ⊢
    rw [List.nodup_middle, List.nodup_cons, List.mem_append, not_or] at unique
    exact unique.1
  simp only [marks, rowUnder, under_ofText, inside_append, inside_dir, inside_nil, if_pos,
    inside_of_not_mem first _ others.1, inside_of_not_mem first _ others.2, List.nil_append]

section Row

variable {fs : FileSystem} {parent : Path} {place : Place} {ts : List Tree}

theorem Writable.alone (writable : Writable fs parent place ts) {t : Tree} (member : t ∈ ts) :
    Writable fs parent place [t] := by
  refine ⟨fun dirs name marked => ?_, fun dirs name => ?_⟩
  · refine writable.named dirs name fun unmarked => marked ?_
    rw [marks_flatMap, List.flatMap_eq_nil_iff] at unmarked
    exact unmarked t member
  · refine puts_sublist (writable.puts dirs name) ?_
    obtain ⟨front, back, rfl⟩ := List.append_of_mem member
    rw [marks_flatMap (front ++ _), List.flatMap_append, List.flatMap_cons]
    exact (List.sublist_append_left _ _).trans (List.sublist_append_right _ _)

theorem Writable.apart (writable : Writable fs parent place ts) (l : Leaf) (leaf : .leaf l ∈ ts) :
    l.file ∉ dirNames ts := by
  intro dir
  have marked := (mem_marks_dir ts [] (Path.ofText l.file)).mpr (List.mem_map_of_mem dir)
  have alone := puts_dir (writable.puts [] _) marked
  have here : l ∈ leavesAt ts [] (Path.ofText l.file) :=
    List.mem_filter.mpr ⟨List.mem_filterMap.mpr ⟨_, leaf, rfl⟩, decide_eq_true rfl⟩
  have file := mem_marks_file ts [] _ l here
  rw [alone] at file
  cases List.mem_singleton.mp file

theorem puts_row (unique : (dirNames ts).Nodup) (apart : ∀ l, .leaf l ∈ ts → l.file ∉ dirNames ts)
    (name : Name) : Puts none (marks ts [] name) := by
  rw [marks, rowUnder, puts_perm (marks_perm ts name)]
  by_cases dir : name ∈ (dirNames ts).map Path.ofText
  · have once := List.count_eq_one_of_mem (unique.map Path.ofText_injective) dir
    have reports : (ts.filterMap leaf?).filter (Path.ofText ·.file = name) = [] := by
      rw [List.filter_eq_nil_iff]
      intro l member same
      obtain ⟨t, there, is_leaf⟩ := List.mem_filterMap.mp member
      obtain ⟨title, titled, encoded⟩ := List.mem_map.mp dir
      cases t with
      | leaf l =>
        cases is_leaf
        have own : title = l.file :=
          Path.ofText_injective (encoded.trans (of_decide_eq_true same).symm)
        exact apart _ there (own ▸ titled)
      | dir other children => cases is_leaf
    rw [reports, once]
    exact ⟨rfl, trivial⟩
  · rw [List.count_eq_zero.mpr dir, List.replicate_zero, List.append_nil]
    refine puts_files (by simp) fun kind member => ?_
    obtain ⟨l, _, rfl⟩ := List.mem_map.mp member
    exact ⟨_, rfl⟩

end Row

section Bare

variable {fs : FileSystem} {parent : Path} {place : Place}
  (bare : ∀ dirs name, fs.kind? (place ++ dirs ++ [name]) = none)

include bare

/-- Trees can be put side by side into an empty directory if each alone can be, unless two would put
a directory at one place, or a directory and a report. -/
theorem writable_row_iff (ts : List Tree) : Writable fs parent place ts ↔
    (∀ t ∈ ts, Writable fs parent place [t]) ∧ (dirNames ts).Nodup ∧
      ∀ l, .leaf l ∈ ts → l.file ∉ dirNames ts := by
  constructor
  · intro writable
    exact ⟨fun _ => writable.alone, writable.unique [], writable.apart⟩
  · rintro ⟨each, unique, apart⟩
    refine ⟨fun dirs name marked => ?_, fun dirs name => ?_⟩
    · rw [marks_flatMap, ne_eq, List.flatMap_eq_nil_iff, not_forall] at marked
      obtain ⟨t, marked⟩ := marked
      rw [Classical.not_imp] at marked
      exact (each t marked.1).named dirs name marked.2
    · cases dirs with
      | nil =>
        have here : fs.kind? (place ++ [] ++ [name]) = none := bare [] name
        rw [here]
        exact puts_row unique apart name
      | cons first rest =>
        by_cases dir : ∃ title ∈ dirNames ts, Path.ofText title = first
        · obtain ⟨title, titled, rfl⟩ := dir
          obtain ⟨t, member, named⟩ := List.mem_filterMap.mp titled
          cases t with
          | leaf l => cases named
          | dir other children =>
            cases named
            rw [marks_in_dir unique member]
            exact (each _ member).puts (Path.ofText title :: rest) name
        · rw [marks, rowUnder, under_of_not_mem first ts fun title titled encoded =>
            dir ⟨title, titled, encoded⟩, rowUnder_nil]
          trivial

/-- What can be put into an empty directory. -/
theorem writable_iff {t : Tree} (nameable : Nameable t) :
    Writable fs parent place [t] ↔ Separate t ∧ Fitting parent t := by
  induction nameable generalizing parent place with
  | @leaf l slash nul short =>
    have proper := (Nameable.leaf slash nul short).proper_file
    rw [writable_leaf_iff]
    constructor
    · rintro ⟨named, _⟩
      exact ⟨.leaf l, .leaf named.fits⟩
    · rintro ⟨_, fitting⟩
      cases fitting with
      | leaf fits =>
        have free := bare [] (Path.ofText l.file)
        rw [List.append_nil] at free
        exact ⟨⟨proper, fits⟩, by simp [free]⟩
  | @dir title children named each ih =>
    generalize encoded : Path.ofText title = name at named ih
    have free := bare [] name
    rw [List.append_nil] at free
    have bare_inside : ∀ dirs last, fs.kind? (place ++ [name] ++ dirs ++ [last]) = none := by
      intro dirs last
      have below := bare (name :: dirs) last
      simpa using below
    rw [writable_dir_iff parent encoded, writable_row_iff bare_inside]
    have inner (t : Tree) (member : t ∈ children) :
        Writable fs (Path.join parent name) (place ++ [name]) [t] ↔
          Separate t ∧ Fitting (Path.join parent name) t := ih t member bare_inside
    constructor
    · rintro ⟨⟨here, _⟩, writable, unique, apart⟩
      subst encoded
      refine ⟨.dir title unique apart fun t member => ?_, .dir here.fits fun t member => ?_⟩
      · exact ((inner t member).mp (writable t member)).1
      · exact ((inner t member).mp (writable t member)).2
    · rintro ⟨separate, fitting⟩
      cases separate with
      | dir _ unique apart separate =>
        cases fitting with
        | dir fits fitting =>
          rw [encoded] at fits fitting
          refine ⟨⟨⟨named, fits⟩, free⟩, fun t member => ?_, unique, apart⟩
          exact (inner t member).mpr ⟨separate t member, fitting t member⟩

end Bare

end SmaliReport.Tree
