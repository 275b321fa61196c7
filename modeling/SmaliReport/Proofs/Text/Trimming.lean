import Mathlib.Data.List.TakeWhile
import SmaliReport.Proofs.Text.Fragments
import SmaliReport.Proofs.Text.Lines

/-!
Blanks at the ends of a line. They change neither what is left of the line after trimming nor where
a fragment without blanks at its own ends stands in it. A carriage return before a line feed is such
a blank, so the lines of a text after trimming do not say how they were ended.
-/

namespace SmaliReport.Text

theorem trim_blank_append {lead : Text} (blank : Blank lead) (t : Text) :
    trim (lead ++ t) = trim t := by
  rw [trim, trim, List.dropWhile_append_of_pos blank]

theorem blank_reverse {t : Text} (blank : Blank t) : Blank t.reverse :=
  fun c member => blank c (List.mem_reverse.mp member)

theorem trim_append_blank (t : Text) {trail : Text} (blank : Blank trail) :
    trim (t ++ trail) = trim t := by
  rw [trim, trim, List.dropWhile_append]
  split
  · rename_i nothing
    have gone : trail.dropWhile isBlank = [] := List.dropWhile_eq_nil_iff.mpr blank
    rw [gone, List.isEmpty_iff.mp nothing]
  · rw [List.reverse_append, List.dropWhile_append_of_pos (blank_reverse blank)]

theorem Padded.trim_eq {core line : Text} (padded : Padded core line) : trim line = trim core := by
  obtain ⟨lead, trail, front, back, rfl⟩ := padded
  rw [trim_append_blank _ back, trim_blank_append front]

theorem padded_trim (t : Text) : Padded t.trim t := by
  refine ⟨t.takeWhile isBlank, ((t.dropWhile isBlank).reverse.takeWhile isBlank).reverse,
    List.all_eq_true.mp List.all_takeWhile,
    blank_reverse (List.all_eq_true.mp List.all_takeWhile), ?_⟩
  rw [trim, List.append_assoc, ← List.reverse_append, List.takeWhile_append_dropWhile,
    List.reverse_reverse, List.takeWhile_append_dropWhile]

theorem Padded.subset {core line : Text} (padded : Padded core line) : core ⊆ line := by
  obtain ⟨lead, trail, _, _, rfl⟩ := padded
  exact fun c member => List.mem_append_left trail (List.mem_append_right lead member)

theorem trim_trim (t : Text) : trim (trim t) = trim t := (padded_trim t).trim_eq.symm

/-- Trimming keeps a visible first character. -/
theorem trim_visible {c : Char} (visible : isBlank c = false) (t : Text) :
    ∃ rest, trim (c :: t) = c :: rest := by
  have front : (c :: t).dropWhile isBlank = c :: t :=
    List.dropWhile_cons_of_neg (by simp [visible])
  have stop : [c].dropWhile isBlank = [c] := List.dropWhile_cons_of_neg (by simp [visible])
  rw [trim, front, List.reverse_cons, List.dropWhile_append, stop]
  split
  · exact ⟨[], rfl⟩
  · exact ⟨(t.reverse.dropWhile isBlank).reverse, by rw [List.reverse_append]; rfl⟩

theorem infix_blank_append {part lead : Text} (first : ∃ c, part.head? = some c ∧ isBlank c = false)
    (blank : Blank lead) (t : Text) : part <:+: lead ++ t ↔ part <:+: t := by
  obtain ⟨c, head, visible⟩ := first
  induction lead with
  | nil => rfl
  | cons d lead ih =>
    have apart : ¬part <+: d :: (lead ++ t) := by
      intro starts
      cases part with
      | nil => cases head
      | cons e part =>
        obtain rfl : e = d := (List.cons_prefix_cons.mp starts).1
        obtain rfl : e = c := Option.some.inj head
        exact absurd (blank e List.mem_cons_self) (by simp [visible])
    have behind : Blank lead := fun e member => blank e (List.mem_cons_of_mem d member)
    rw [List.cons_append, List.infix_cons_iff, ih behind]
    exact or_iff_right apart

theorem infix_append_blank {part trail : Text}
    (last : ∃ c, part.getLast? = some c ∧ isBlank c = false) (blank : Blank trail) (t : Text) :
    part <:+: t ++ trail ↔ part <:+: t := by
  rw [← List.reverse_infix, List.reverse_append,
    infix_blank_append (by simpa using last) (blank_reverse blank), List.reverse_infix]

/-- Blanks around a line neither make nor break a fragment that has none at its own ends. -/
theorem contains_trim {part : Text} (solid : Solid part) (t : Text) :
    contains part t.trim = contains part t := by
  obtain ⟨lead, trail, front, back, shape⟩ := padded_trim t
  rw [Bool.eq_iff_iff, contains_iff, contains_iff]
  conv_rhs => rw [shape]
  rw [infix_append_blank solid.2 back, infix_blank_append solid.1 front]

theorem cut_blank_append {mark : Char} (visible : isBlank mark = false) {lead : Text}
    (blank : Blank lead) (t : Text) :
    cut? mark (lead ++ t) = (cut? mark t).map fun (l, r) => (lead ++ l, r) := by
  induction lead with
  | nil => simp
  | cons c lead ih =>
    have other : c ≠ mark := by
      rintro rfl
      exact absurd (blank c List.mem_cons_self) (by simp [visible])
    have behind : Blank lead := fun d member => blank d (List.mem_cons_of_mem c member)
    rw [List.cons_append, cut?, if_neg other, ih behind, Option.map_map]
    rfl

theorem cut_absent {mark : Char} {t : Text} (absent : mark ∉ t) : cut? mark t = none := by
  induction t with
  | nil => rfl
  | cons c t ih =>
    rw [List.mem_cons, not_or] at absent
    rw [cut?, if_neg (Ne.symm absent.1), ih absent.2]
    rfl

theorem cut_append_blank {mark : Char} (visible : isBlank mark = false) (t : Text) {trail : Text}
    (blank : Blank trail) :
    cut? mark (t ++ trail) = (cut? mark t).map fun (l, r) => (l, r ++ trail) := by
  induction t with
  | nil => exact cut_absent (not_mem_of_blank trail blank mark visible)
  | cons c t ih =>
    rw [List.cons_append, cut?, cut?, ih]
    split
    · rfl
    · rw [Option.map_map, Option.map_map]
      rfl

/-- What stands behind a mark in a line is the same up to blanks at its ends. -/
theorem cut_trim {mark : Char} (visible : isBlank mark = false) (t : Text) :
    (cut? mark t.trim).map (fun (_, behind) => behind.trim) =
      (cut? mark t).map fun (_, behind) => behind.trim := by
  obtain ⟨lead, trail, front, back, shape⟩ := padded_trim t
  conv_rhs => rw [shape]
  rw [cut_append_blank visible _ back, cut_blank_append visible front, Option.map_map,
    Option.map_map]
  congr 1
  funext ⟨_, behind⟩
  exact (trim_append_blank behind back).symm

theorem trim_line (row : Text) : trim ((['\r'].isSuffixOf? row).getD row) = trim row := by
  cases found : ['\r'].isSuffixOf? row with
  | none => rfl
  | some front =>
    obtain rfl : front ++ ['\r'] = row := List.isSuffixOf?_eq_some_iff_append_eq.mp found
    exact (trim_append_blank front (by decide)).symm

theorem trimmed_lines {rows : List Text} (single : ∀ row ∈ rows, '\n' ∉ row) (rest : Text) :
    (lines (ended rows ++ rest)).map trim = rows.map trim ++ (lines rest).map trim := by
  rw [lines_ended single, List.map_append, List.map_map]
  congr 1
  exact List.map_congr_left fun row _ => trim_line row

theorem padded_rows {rows others : List Text} (padded : List.Forall₂ Padded rows others)
    (single : ∀ row ∈ others, '\n' ∉ row) :
    (∀ row ∈ rows, '\n' ∉ row) ∧ others.map trim = rows.map trim := by
  induction padded with
  | nil => exact ⟨nofun, rfl⟩
  | cons first _ ih =>
    rw [List.forall_mem_cons] at single
    obtain ⟨rest, trims⟩ := ih single.2
    exact ⟨List.forall_mem_cons.mpr ⟨fun feed => single.1 (first.subset feed), rest⟩,
      by rw [List.map_cons, List.map_cons, first.trim_eq, trims]⟩

end SmaliReport.Text
