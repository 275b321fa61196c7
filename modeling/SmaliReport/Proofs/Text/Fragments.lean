import Mathlib.Data.List.Infix
import SmaliReport.Text.Basic

/-! Where a fragment can stand in a text, and what trimming leaves. A fragment cannot reach
across a character it does not hold, and it stands nowhere in a text without one of its own. -/

namespace SmaliReport.Text

theorem contains_iff (part t : Text) : contains part t = true ↔ part <:+: t := by
  induction t with
  | nil => simp [contains, List.isEmpty_iff]
  | cons c rest ih => simp [contains, ih, List.infix_cons_iff]

theorem contains_eq_false_iff (part t : Text) : contains part t = false ↔ ¬ part <:+: t := by
  rw [← contains_iff, Bool.not_eq_true]

theorem not_infix_of_not_mem (part t : Text) (c : Char) (own : c ∈ part) (absent : c ∉ t) :
    ¬ part <:+: t := fun h => absent (h.subset own)

theorem infix_split (part left right : Text) (c : Char) (free : c ∉ part)
    (h : part <:+: left ++ c :: right) : part <:+: left ∨ part <:+: right := by
  obtain ⟨s, t, h⟩ := h
  rcases List.append_eq_append_iff.mp h with ⟨a, hl, _⟩ | ⟨a, hs, hr⟩
  · exact .inl ⟨s, a, hl.symm⟩
  · rcases List.append_eq_append_iff.mp hs with ⟨b, hl, hp⟩ | ⟨b, hs, ha⟩
    · cases a with
      | nil => exact .inl ⟨s, [], by simp [hl, hp]⟩
      | cons d a =>
        have same : c = d := (List.cons.inj hr).1
        exact absurd (by simp [hp, same]) free
    · cases b with
      | nil =>
        cases part with
        | nil => exact .inl List.nil_infix
        | cons d part =>
          rw [ha] at hr
          have same : c = d := (List.cons.inj hr).1
          exact absurd (by simp [same]) free
      | cons d b =>
        rw [ha] at hr
        exact .inr ⟨b, t, by simpa using (List.cons.inj hr).2.symm⟩

theorem prefix_split (part left right : Text) (c : Char) (free : c ∉ part)
    (h : part <+: left ++ c :: right) : part <+: left := by
  obtain ⟨t, h⟩ := h
  rcases List.append_eq_append_iff.mp h with ⟨a, hl, _⟩ | ⟨a, hp, hr⟩
  · exact ⟨a, hl.symm⟩
  · cases a with
    | nil => exact ⟨[], by simp [hp]⟩
    | cons d a =>
      have same : c = d := (List.cons.inj hr).1
      exact absurd (by simp [hp, same]) free

theorem split_unique (left right front back : Text) (c : Char) (before : c ∉ left)
    (behind : c ∉ right) (h : front ++ c :: back = left ++ c :: right) : front = left := by
  rcases List.append_eq_append_iff.mp h with ⟨a, hl, hb⟩ | ⟨a, hf, hr⟩
  · cases a with
    | nil => rw [hl, List.append_nil]
    | cons d a =>
      have same : c = d := (List.cons.inj hb).1
      exact absurd (by simp [hl, same]) before
  · cases a with
    | nil => rw [hf, List.append_nil]
    | cons d a => exact absurd (by simp [(List.cons.inj hr).2]) behind

theorem infix_quoted (part left inner right : Text) (free : '"' ∉ part)
    (h : part <:+: left ++ ('"' :: inner ++ ['"']) ++ right) :
    part <:+: left ∨ part <:+: inner ∨ part <:+: right := by
  have shape : left ++ ('"' :: inner ++ ['"']) ++ right =
      left ++ '"' :: (inner ++ '"' :: right) := by
    simp
  rw [shape] at h
  exact (infix_split part left _ '"' free h).imp_right (infix_split part inner right '"' free)

def Blank (t : Text) : Prop := ∀ c ∈ t, isBlank c = true

instance (t : Text) : Decidable (Blank t) :=
  decidable_of_iff (t.all isBlank = true) List.all_eq_true

theorem not_mem_of_blank (t : Text) (blank : Blank t) (c : Char) (visible : isBlank c = false) :
    c ∉ t := by
  intro member
  rw [blank c member] at visible
  cases visible

/-- Neither the first nor the last character is a blank. -/
def Solid (t : Text) : Prop :=
  (∃ c, t.head? = some c ∧ isBlank c = false) ∧ ∃ c, t.getLast? = some c ∧ isBlank c = false

theorem solid_ends (left middle right : Text) (first : Solid left) (last : Solid right) :
    Solid (left ++ middle ++ right) := by
  obtain ⟨⟨c, hc, visible⟩, _⟩ := first
  obtain ⟨_, ⟨d, hd, seen⟩⟩ := last
  refine ⟨⟨c, ?_, visible⟩, ⟨d, ?_, seen⟩⟩
  · simp [List.head?_append, hc]
  · simp [List.getLast?_append, hd]

/-- The text with blanks before and behind it. -/
def Padded (core line : Text) : Prop :=
  ∃ lead trail, Blank lead ∧ Blank trail ∧ line = lead ++ core ++ trail

theorem dropWhile_blank (lead core : Text) (blank : Blank lead)
    (first : ∃ c, core.head? = some c ∧ isBlank c = false) :
    (lead ++ core).dropWhile isBlank = core := by
  obtain ⟨c, hc, visible⟩ := first
  rw [List.dropWhile_append_of_pos blank]
  cases core with
  | nil => cases hc
  | cons d core =>
    cases hc
    rw [List.dropWhile_cons_of_neg (by simp [visible])]

theorem trim_padded (core line : Text) (padded : Padded core line) (solid : Solid core) :
    trim line = core := by
  obtain ⟨lead, trail, hl, ht, rfl⟩ := padded
  obtain ⟨⟨c, hc, visible⟩, ⟨d, hd, seen⟩⟩ := solid
  have front : (lead ++ core ++ trail).dropWhile isBlank = core ++ trail := by
    rw [List.append_assoc]
    exact dropWhile_blank lead _ hl ⟨c, by simp [List.head?_append, hc], visible⟩
  have back : (trail.reverse ++ core.reverse).dropWhile isBlank = core.reverse := by
    refine dropWhile_blank _ _ ?_ ⟨d, by simpa using hd, seen⟩
    intro e he
    exact ht e (List.mem_reverse.mp he)
  rw [trim, front, List.reverse_append, back, List.reverse_reverse]

theorem cut_append (mark : Char) (left right : Text) (absent : mark ∉ left) :
    cut? mark (left ++ mark :: right) = some (left, right) := by
  induction left with
  | nil => simp [cut?]
  | cons c left ih =>
    simp only [List.mem_cons, not_or] at absent
    simp [cut?, Ne.symm absent.1, ih absent.2]

end SmaliReport.Text
