import SmaliReport.Proofs.Region.Written

/-! Searches in a region of written fields. A line of one field is never taken for another field's
key or opener, nor for the end of an array or of the block, whatever the order of the fields. -/

namespace SmaliReport.Region

open Text (Blank Padded Solid)

theorem between_block (opening closing : Text) (before body after : List Text) (start stop : Text)
    (quiet : ∀ line ∈ before, Text.contains opening line = false)
    (opens : Text.contains opening start = true)
    (inner : ∀ line ∈ body, Text.contains closing line = false)
    (closes : Text.contains closing stop = true) :
    between opening closing (before ++ start :: (body ++ stop :: after)) = body := by
  have front : (before ++ start :: (body ++ stop :: after)).dropWhile
      (fun line => !Text.contains opening line) = start :: (body ++ stop :: after) := by
    rw [List.dropWhile_append_of_pos (by simpa using quiet)]
    exact List.dropWhile_cons_of_neg (by simp [opens])
  rw [between, front, List.drop_one, List.tail_cons,
    List.takeWhile_append_of_pos (by simpa using inner),
    List.takeWhile_cons_of_neg (by simp [closes]), List.append_nil]

theorem between_nothing (opening closing : Text) (lines : List Text)
    (quiet : ∀ line ∈ lines, Text.contains opening line = false) :
    between opening closing lines = [] := by
  have front : lines.dropWhile (fun line => !Text.contains opening line) = [] := by
    rw [← List.append_nil lines, List.dropWhile_append_of_pos (by simpa using quiet)]
    rfl
  rw [between, front]
  rfl

inductive LineOf (key : Text) : Text → Prop where
  | inline {v line : Text} : Plain v → Inline key v line → LineOf key line
  | opener {line : Text} : Opener key line → LineOf key line
  | element {v line : Text} : Plain v → Element v line → LineOf key line
  | closer {line : Text} : Closer line → LineOf key line

/-- A key is a solid word without the characters that the searches look for. -/
structure Word (key : Text) : Prop where
  solid : Solid key
  free : ∀ c ∈ [' ', '=', '.', '\x7b', '\x7d', '"'], c ∉ key
  head : ∀ c rest, key = c :: rest → c ≠ '"' ∧ c ≠ '0'

/-- Two keys of which none stands at the end of the other. -/
def Apart (key other : Text) : Prop := ¬ key <:+ other ∧ ¬ other <:+ key

theorem not_mem_padding (lead trail : Text) (hl : Blank lead) (ht : Blank trail) (c : Char)
    (visible : Text.isBlank c = false) : c ∉ lead ∧ c ∉ trail :=
  ⟨Text.not_mem_of_blank lead hl c visible, Text.not_mem_of_blank trail ht c visible⟩

theorem not_mem_comma (comma : Text) (tail : Comma comma) (c : Char) (other : c ≠ ',') :
    c ∉ comma := by
  rcases tail with rfl | rfl
  · exact List.not_mem_nil
  · simpa using other

/-- What a written value does not hold, its line does not hold either. -/
theorem not_infix_element (part v line : Text) (c : Char) (element : Element v line)
    (free : '"' ∉ part) (own : c ∈ part) (visible : Text.isBlank c = false) (other : c ≠ ',')
    (bare : ∀ n, Literal n v → c ∉ v) (inner : ¬ part <:+: v) : ¬ part <:+: line := by
  obtain ⟨w, comma, written, tail, lead, trail, hl, ht, rfl⟩ := element
  obtain ⟨front, back⟩ := not_mem_padding lead trail hl ht c visible
  have shape : lead ++ (w ++ comma) ++ trail = lead ++ w ++ (comma ++ trail) := by simp
  rw [shape]
  refine not_infix_written part v w lead _ c written free own front ?_ bare inner
  simp only [List.mem_append, not_or]
  exact ⟨not_mem_comma comma tail c other, back⟩

theorem not_infix_inline (part key v line : Text) (c : Char) (word : Word key)
    (inline : Inline key v line) (free : '"' ∉ part) (own : c ∈ part)
    (searched : c ∈ ['.', '\x7b', '\x7d']) (bare : ∀ n, Literal n v → c ∉ v)
    (inner : ¬ part <:+: v) : ¬ part <:+: line := by
  obtain ⟨w, comma, written, tail, lead, trail, hl, ht, rfl⟩ := inline
  obtain ⟨visible, other, middle, known⟩ : Text.isBlank c = false ∧ c ≠ ',' ∧ c ∉ " = ".toList ∧
      c ∈ [' ', '=', '.', '\x7b', '\x7d', '"'] := by
    simp only [List.mem_cons, List.not_mem_nil, or_false] at searched
    rcases searched with rfl | rfl | rfl <;> decide
  obtain ⟨front, back⟩ := not_mem_padding lead trail hl ht c visible
  have shape : lead ++ (key ++ " = ".toList ++ (w ++ comma)) ++ trail =
      (lead ++ key ++ " = ".toList) ++ w ++ (comma ++ trail) := by simp
  rw [shape]
  refine not_infix_written part v w _ _ c written free own ?_ ?_ bare inner
  · simp only [List.mem_append, not_or]
    exact ⟨⟨front, word.free c known⟩, middle⟩
  · simp only [List.mem_append, not_or]
    exact ⟨not_mem_comma comma tail c other, back⟩

theorem closingMark_absent (key line : Text) (word : Word key) (of : LineOf key line) :
    ¬ closingMark <:+: line := by
  have free : '"' ∉ closingMark := by decide
  have own : '.' ∈ closingMark := by decide
  cases of with
  | inline plain inline =>
    exact not_infix_inline _ key _ line '.' word inline free own (by decide)
      (fun n h => (not_mem_literal n _ h).2.2) ((Text.contains_eq_false_iff _ _).mp plain.2.2)
  | opener opener =>
    obtain ⟨lead, trail, hl, ht, rfl⟩ := opener
    obtain ⟨front, back⟩ := not_mem_padding lead trail hl ht '.' (by decide)
    apply Text.not_infix_of_not_mem _ _ '.' own
    simp only [List.mem_append, not_or]
    exact ⟨⟨front, word.free '.' (by decide), by decide⟩, back⟩
  | element plain element =>
    exact not_infix_element _ _ line '.' element free own (by decide) (by decide)
      (fun n h => (not_mem_literal n _ h).2.2) ((Text.contains_eq_false_iff _ _).mp plain.2.2)
  | closer closer =>
    obtain ⟨comma, tail, lead, trail, hl, ht, rfl⟩ := closer
    obtain ⟨front, back⟩ := not_mem_padding lead trail hl ht '.' (by decide)
    apply Text.not_infix_of_not_mem _ _ '.' own
    simp only [List.mem_append, List.mem_cons, not_or]
    exact ⟨⟨front, by decide, not_mem_comma comma tail '.' (by decide)⟩, back⟩

theorem opener_absent (key other line : Text) (word : Word key) (apart : Apart other key)
    (of : LineOf key line) : ¬ other ++ " = \x7b".toList <:+: line := by
  have tail : " = \x7b".toList <:+: other ++ " = \x7b".toList := List.infix_append_right
  have own : '\x7b' ∈ " = \x7b".toList := by decide
  cases of with
  | inline plain inline =>
    intro h
    exact not_infix_inline _ key _ line '\x7b' word inline (by decide) own (by decide)
      (fun n h => (not_mem_literal n _ h).1) ((Text.contains_eq_false_iff _ _).mp plain.2.1)
      (tail.trans h)
  | element plain element =>
    intro h
    exact not_infix_element _ _ line '\x7b' element (by decide) own (by decide) (by decide)
      (fun n h => (not_mem_literal n _ h).1) ((Text.contains_eq_false_iff _ _).mp plain.2.1)
      (tail.trans h)
  | closer closer =>
    obtain ⟨comma, tail, lead, trail, hl, ht, rfl⟩ := closer
    obtain ⟨front, back⟩ := not_mem_padding lead trail hl ht '\x7b' (by decide)
    apply Text.not_infix_of_not_mem _ _ '\x7b' (by simp)
    simp only [List.mem_append, List.mem_cons, not_or]
    exact ⟨⟨front, by decide, not_mem_comma comma tail '\x7b' (by decide)⟩, back⟩
  | opener opener =>
    -- The opening brace stands only once, so the two openers end together.
    obtain ⟨lead, trail, hl, ht, rfl⟩ := opener
    rintro ⟨s, t, h⟩
    obtain ⟨front, back⟩ := not_mem_padding lead trail hl ht '\x7b' (by decide)
    have only : '\x7b' ∉ lead ++ key ++ " = ".toList := by
      simp only [List.mem_append, not_or]
      exact ⟨⟨front, word.free _ (by decide)⟩, by decide⟩
    have ends : s ++ other ++ " = ".toList = lead ++ key ++ " = ".toList := by
      apply Text.split_unique _ trail _ t '\x7b' only back
      simpa using h
    have keys := List.append_cancel_right ends
    rcases List.suffix_or_suffix_of_suffix ⟨s, keys⟩ ⟨lead, rfl⟩ with inner | outer
    · exact apart.1 inner
    · exact apart.2 outer

theorem brace_not_mem (v line : Text) (plain : Plain v) (element : Element v line) :
    Text.contains ['\x7d'] line = false := by
  apply (Text.contains_eq_false_iff _ line).mpr
  refine not_infix_element _ v line '\x7d' element (by decide) (by simp) (by decide) (by decide)
    (fun n h => (not_mem_literal n v h).2.1) ?_
  exact Text.not_infix_of_not_mem _ v _ (by simp) plain.1

theorem plain_elements (vs body : List Text) (written : List.Forall₂ Element vs body)
    (plain : ∀ v ∈ vs, Plain v) (line : Text) (member : line ∈ body) :
    ∃ v, Plain v ∧ Element v line := by
  induction written with
  | nil => cases member
  | @cons v first vs body element _ ih =>
    rcases List.mem_cons.mp member with rfl | member
    · exact ⟨v, plain v List.mem_cons_self, element⟩
    · exact ih (fun v hv => plain v (List.mem_cons_of_mem _ hv)) member

theorem map_cleaned_elements (vs body : List Text) (written : List.Forall₂ Element vs body) :
    body.map cleaned = vs := by
  induction written with
  | nil => rfl
  | cons element _ ih => rw [List.map_cons, cleaned_element _ _ element, ih]

theorem opener_contains (key line : Text) (opener : Opener key line) :
    Text.contains (key ++ " = \x7b".toList) line = true := by
  obtain ⟨lead, trail, _, _, rfl⟩ := opener
  exact (Text.contains_iff _ _).mpr (List.infix_append lead _ trail)

theorem closer_contains (line : Text) (closer : Closer line) :
    Text.contains ['\x7d'] line = true := by
  obtain ⟨comma, _, lead, trail, _, _, rfl⟩ := closer
  exact (Text.contains_iff _ _).mpr ⟨lead, comma ++ trail, by simp⟩

/-- The array of a key holds its values if no line before it opens one of the same key. -/
theorem elements_braced (key : Text) (default vs front lines back : List Text)
    (braced : Braced key vs lines) (plain : ∀ v ∈ vs, Plain v) (default_empty : vs = [] → default = [])
    (quiet : ∀ line ∈ front, Text.contains (key ++ " = \x7b".toList) line = false) :
    elements key default (front ++ lines ++ back) = vs := by
  obtain ⟨opener, body, closer, rfl, opens, written, closes⟩ := braced
  have inner : ∀ line ∈ body, Text.contains ['\x7d'] line = false := by
    intro line hl
    obtain ⟨v, hv, element⟩ := plain_elements vs body written plain line hl
    exact brace_not_mem v line hv element
  have shape : front ++ opener :: (body ++ [closer]) ++ back =
      front ++ opener :: (body ++ closer :: back) := by simp
  have found : between (key ++ " = \x7b".toList) "\x7d".toList
      (front ++ opener :: (body ++ [closer]) ++ back) = body := by
    rw [shape]
    exact between_block _ _ front body back opener closer quiet (opener_contains key opener opens)
      inner (closer_contains closer closes)
  rw [elements, found]
  cases written with
  | nil => simp [default_empty rfl]
  | cons element rest => exact map_cleaned_elements _ _ (.cons element rest)

theorem elements_absent (key : Text) (default : List Text) (region : Region)
    (quiet : ∀ line ∈ region, Text.contains (key ++ " = \x7b".toList) line = false) :
    elements key default region = default.map cleaned := by
  rw [elements, between_nothing _ _ region quiet]
  rfl

theorem prefix_word (key other s t : Text) (hk : ' ' ∉ key) (ho : ' ' ∉ other)
    (h : other ++ ' ' :: s <+: key ++ ' ' :: t) : other = key := by
  obtain ⟨r, h⟩ := h
  rw [List.append_assoc, List.cons_append] at h
  rcases List.append_eq_append_iff.mp h with ⟨a, hl, hr⟩ | ⟨a, hl, hr⟩
  · cases a with
    | nil => rw [hl, List.append_nil]
    | cons c a =>
      have same : ' ' = c := (List.cons.inj hr).1
      exact absurd (by simp [hl, ← same]) hk
  · cases a with
    | nil => rw [hl, List.append_nil]
    | cons c a =>
      have same : ' ' = c := (List.cons.inj hr).1
      exact absurd (by simp [hl, ← same]) ho

theorem solid_inline (key w comma : Text) (v : Text) (word : Word key) (written : Written v w)
    (tail : Comma comma) : Solid (key ++ " = ".toList ++ (w ++ comma)) :=
  Text.solid_ends key _ _ word.solid (solid_comma w comma (solid_written v w written) tail)

theorem key_absent (key other line : Text) (word : Word key) (search : Word other)
    (differs : other ≠ key) (of : LineOf key line) : ¬ other ++ " =".toList <+: line.trim := by
  obtain ⟨⟨c, hc, _⟩, _⟩ := search.solid
  obtain ⟨rest, rfl⟩ : ∃ rest, other = c :: rest := by
    cases other with
    | nil => cases hc
    | cons d rest => exact ⟨rest, by rw [Option.some.inj hc]⟩
  have keyed (t : Text) : ¬ (c :: rest) ++ " =".toList <+: key ++ ' ' :: t := by
    intro h
    exact differs
      (prefix_word key _ ['='] t (word.free _ (by decide)) (search.free _ (by decide)) h)
  cases of with
  | inline plain inline =>
    obtain ⟨w, comma, written, tail, padded⟩ := inline
    rw [Text.trim_padded _ line padded (solid_inline key w comma _ word written tail)]
    simpa using keyed ('=' :: ' ' :: (w ++ comma))
  | opener opener =>
    have solid : Solid (key ++ " = \x7b".toList) := by
      simpa using Text.solid_ends key " = ".toList ['\x7b'] word.solid
        ⟨⟨'\x7b', rfl, by decide⟩, '\x7b', rfl, by decide⟩
    rw [Text.trim_padded _ line opener solid]
    exact keyed "= \x7b".toList
  | element plain element =>
    obtain ⟨w, comma, written, tail, padded⟩ := element
    rw [Text.trim_padded _ line padded (solid_comma w comma (solid_written _ w written) tail)]
    obtain ⟨d, more, rfl, first⟩ := written_cons _ w written
    intro h
    have same : c = d := (List.cons_prefix_cons.mp h).1
    obtain ⟨quote, zero⟩ := search.head c rest rfl
    rcases first with rfl | rfl
    · exact quote same
    · exact zero same
  | closer closer =>
    obtain ⟨comma, tail, padded⟩ := closer
    have brace : Solid ['\x7d'] := ⟨⟨'\x7d', rfl, by decide⟩, '\x7d', rfl, by decide⟩
    rw [Text.trim_padded _ line padded (solid_comma ['\x7d'] comma brace tail)]
    intro h
    have same : c = '\x7d' := (List.cons_prefix_cons.mp h).1
    exact search.free '\x7d' (by decide) (same ▸ List.mem_cons_self)

/-- A key has the value of its line if no line before it starts with the key. -/
theorem single_inline (key v line : Text) (front back : List Text) (word : Word key)
    (inline : Inline key v line)
    (quiet : ∀ l ∈ front, ¬ key ++ " =".toList <+: l.trim) :
    single key (front ++ line :: back) = v := by
  obtain ⟨w, comma, written, tail, padded⟩ := inline
  have core := Text.trim_padded _ line padded (solid_inline key w comma v word written tail)
  have starts : (key ++ " =".toList).isPrefixOf line.trim = true := by
    rw [List.isPrefixOf_iff_prefix, core]
    exact ⟨' ' :: (w ++ comma), by simp⟩
  have found : (front ++ line :: back).find?
      (fun l => (key ++ " =".toList).isPrefixOf l.trim) = some line := by
    rw [List.find?_append, List.find?_eq_none.mpr (by simpa using quiet), Option.none_or,
      List.find?_cons, starts]
  obtain ⟨lead, trail, hl, ht, rfl⟩ := padded
  have absent : '=' ∉ lead ++ key ++ [' '] := by
    simp only [List.mem_append, not_or]
    exact ⟨⟨Text.not_mem_of_blank lead hl '=' (by decide), word.free '=' (by decide)⟩, by decide⟩
  have cut : Text.cut? '=' (lead ++ (key ++ " = ".toList ++ (w ++ comma)) ++ trail) =
      some (lead ++ key ++ [' '], [' '] ++ (w ++ comma) ++ trail) := by
    rw [← Text.cut_append '=' _ _ absent]
    simp
  have clean : cleaned ([' '] ++ (w ++ comma) ++ trail) = v :=
    cleaned_written v w comma _ written tail ⟨[' '], trail, by simp [Blank]; decide, ht, rfl⟩
  rw [single, found]
  simp only [cut, Option.map_some, clean, Option.getD_some]

theorem single_absent (key : Text) (region : Region)
    (quiet : ∀ l ∈ region, ¬ key ++ " =".toList <+: l.trim) : single key region = [] := by
  rw [single, List.find?_eq_none.mpr (by simpa using quiet)]

end SmaliReport.Region
