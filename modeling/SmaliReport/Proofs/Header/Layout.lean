import SmaliReport.Header
import SmaliReport.Proofs.Region.Search

/-! Reading a header back from its written form. The eight fields stand in any order, each value
may have a comma behind it, and a field with its default value may be missing. What the fields
hold is bounded only by `Plain`: quotes, commas, equal signs and blanks are free. -/

namespace SmaliReport.Header

open Region

inductive Key where
  | k | xi | xs | pn | bv | mv | d1 | d2
  deriving DecidableEq

def Key.text : Key → Text
  | .k => "k".toList
  | .xi => "xi".toList
  | .xs => "xs".toList
  | .pn => "pn".toList
  | .bv => "bv".toList
  | .mv => "mv".toList
  | .d1 => "d1".toList
  | .d2 => "d2".toList

def PrintedInt (key : Key) (n : Int32) (lines : List Text) : Prop :=
  ∃ v line, lines = [line] ∧ Literal n v ∧ Inline key.text v line

def PrintedText (key : Key) (v : Text) (lines : List Text) : Prop :=
  ∃ line, lines = [line] ∧ Plain v ∧ Inline key.text v line

def PrintedInts (key : Key) (ns : List Int32) (lines : List Text) : Prop :=
  ∃ vs, List.Forall₂ Literal ns vs ∧ Braced key.text vs lines

def PrintedTexts (key : Key) (vs : List Text) (lines : List Text) : Prop :=
  (∀ v ∈ vs, Plain v) ∧ Braced key.text vs lines

/-- The lines state the field of this key. A payload text may be written in any escaped form. -/
def Printed (h : Header) (lines : List Text) : Key → Prop
  | .k => PrintedInt .k h.kind lines
  | .xi => PrintedInt .xi h.extraInt lines
  | .xs => PrintedText .xs h.extraString lines
  | .pn => PrintedText .pn h.packageName lines
  | .bv => PrintedInts .bv h.bytecodeVersion lines
  | .mv => PrintedInts .mv h.metadataVersion lines
  | .d1 => ∃ escaped, escaped.map Text.unescape = h.data1 ∧ PrintedTexts .d1 escaped lines
  | .d2 => PrintedTexts .d2 h.data2 lines

/-- The field has the value it has where it is not written. -/
def Default (h : Header) : Key → Prop
  | .k => h.kind = 1
  | .xi => h.extraInt = 0
  | .xs => h.extraString = []
  | .pn => h.packageName = []
  | .bv => h.bytecodeVersion = [1, 1, 3]
  | .mv => h.metadataVersion = [1, 1, 13]
  | .d1 => False
  | .d2 => h.data2 = []

/-- The written fields of a header: none twice, and only defaults are left out. -/
structure Layout (h : Header) (fields : List (Key × List Text)) : Prop where
  unique : (fields.map (·.1)).Nodup
  printed : ∀ field ∈ fields, Printed h field.2 field.1
  default : ∀ key, key ∉ fields.map (·.1) → Default h key

theorem word_key (key : Key) : Word key.text where
  solid := by cases key <;> exact ⟨⟨_, rfl, by decide⟩, _, rfl, by decide⟩
  free := by
    intro c member
    simp only [List.mem_cons, List.not_mem_nil, or_false] at member
    rcases member with rfl | rfl | rfl | rfl | rfl | rfl <;> cases key <;> decide
  head := by
    intro c rest h
    have first : ∀ c, key.text.head? = some c → c ≠ '"' ∧ c ≠ '0' := by
      cases key <;> (intro c hc; cases hc; decide)
    exact first c (by rw [h]; rfl)

theorem apart_keys (key other : Key) (differs : other ≠ key) : Apart other.text key.text := by
  unfold Apart
  rw [← List.isSuffixOf_iff_suffix, ← List.isSuffixOf_iff_suffix]
  revert differs
  cases key <;> cases other <;> decide

theorem text_ne (key other : Key) (differs : other ≠ key) : other.text ≠ key.text := by
  intro same
  exact (apart_keys key other differs).1 (same ▸ List.suffix_refl _)

theorem plain_literals (ns : List Int32) (vs : List Text) (literals : List.Forall₂ Literal ns vs) :
    ∀ v ∈ vs, Plain v := by
  induction literals with
  | nil => exact nofun
  | cons literal _ ih => exact List.forall_mem_cons.mpr ⟨plain_literal _ _ literal, ih⟩

theorem lineOf_braced (key : Key) (vs lines : List Text) (plain : ∀ v ∈ vs, Plain v)
    (braced : Braced key.text vs lines) : ∀ line ∈ lines, LineOf key.text line := by
  obtain ⟨opener, body, closer, rfl, opens, written, closes⟩ := braced
  intro line member
  rcases List.mem_cons.mp member with rfl | member
  · exact .opener opens
  · rcases List.mem_append.mp member with member | member
    · obtain ⟨v, hv, element⟩ := plain_elements vs body written plain line member
      exact .element hv element
    · exact List.mem_singleton.mp member ▸ .closer closes

theorem lineOf_printed (h : Header) (key : Key) (lines : List Text)
    (printed : Printed h lines key) : ∀ line ∈ lines, LineOf key.text line := by
  have int (key : Key) (n : Int32) (printed : PrintedInt key n lines) :
      ∀ line ∈ lines, LineOf key.text line := by
    obtain ⟨v, line, rfl, literal, inline⟩ := printed
    exact List.forall_mem_singleton.mpr (.inline (plain_literal n v literal) inline)
  have text (key : Key) (v : Text) (printed : PrintedText key v lines) :
      ∀ line ∈ lines, LineOf key.text line := by
    obtain ⟨line, rfl, plain, inline⟩ := printed
    exact List.forall_mem_singleton.mpr (.inline plain inline)
  have ints (key : Key) (ns : List Int32) (printed : PrintedInts key ns lines) :
      ∀ line ∈ lines, LineOf key.text line := by
    obtain ⟨vs, literals, braced⟩ := printed
    exact lineOf_braced key vs lines (plain_literals ns vs literals) braced
  cases key with
  | k => exact int .k _ printed
  | xi => exact int .xi _ printed
  | xs => exact text .xs _ printed
  | pn => exact text .pn _ printed
  | bv => exact ints .bv _ printed
  | mv => exact ints .mv _ printed
  | d1 =>
    obtain ⟨escaped, _, plain, braced⟩ := printed
    exact lineOf_braced .d1 escaped lines plain braced
  | d2 => exact lineOf_braced .d2 h.data2 lines printed.1 printed.2

theorem lineOf_mem (h : Header) (fields : List (Key × List Text))
    (printed : ∀ field ∈ fields, Printed h field.2 field.1) (line : Text)
    (member : line ∈ fields.flatMap (·.2)) : ∃ key ∈ fields.map (·.1), LineOf key.text line := by
  obtain ⟨field, hf, hl⟩ := List.mem_flatMap.mp member
  exact ⟨field.1, List.mem_map_of_mem hf, lineOf_printed h _ _ (printed field hf) line hl⟩

theorem quiet_fields (h : Header) (fields : List (Key × List Text))
    (printed : ∀ field ∈ fields, Printed h field.2 field.1) (key : Key)
    (absent : key ∉ fields.map (·.1)) (line : Text) (member : line ∈ fields.flatMap (·.2)) :
    Text.contains (key.text ++ " = \x7b".toList) line = false ∧
      ¬ key.text ++ " =".toList <+: line.trim := by
  obtain ⟨other, known, of⟩ := lineOf_mem h fields printed line member
  have differs : key ≠ other := by
    rintro rfl
    exact absent known
  refine ⟨(Text.contains_eq_false_iff _ _).mpr ?_, ?_⟩
  · exact opener_absent other.text key.text line (word_key other) (apart_keys other key differs) of
  · exact key_absent other.text key.text line (word_key other) (word_key key)
      (text_ne other key differs) of

theorem split_layout (h : Header) (fields : List (Key × List Text)) (layout : Layout h fields)
    (key : Key) (known : key ∈ fields.map (·.1)) :
    ∃ front lines back, fields.flatMap (·.2) = front ++ lines ++ back ∧ Printed h lines key ∧
      ∀ line ∈ front, Text.contains (key.text ++ " = \x7b".toList) line = false ∧
        ¬ key.text ++ " =".toList <+: line.trim := by
  obtain ⟨⟨key, lines⟩, member, rfl⟩ := List.mem_map.mp known
  obtain ⟨before, after, rfl⟩ := List.append_of_mem member
  refine ⟨before.flatMap (·.2), lines, after.flatMap (·.2), by simp, layout.printed _ member, ?_⟩
  apply quiet_fields h before (fun f hf => layout.printed f (by simp [hf])) key
  have unique := layout.unique
  rw [List.map_append, List.map_cons] at unique
  intro again
  exact (List.nodup_append.mp unique).2.2 _ again _ List.mem_cons_self rfl

theorem integer_layout (h : Header) (fields : List (Key × List Text)) (layout : Layout h fields)
    (key : Key) (n default : Int32)
    (form : ∀ lines, Printed h lines key → PrintedInt key n lines)
    (left : Default h key → n = default) :
    integer key.text default (fields.flatMap (·.2)) = n := by
  by_cases known : key ∈ fields.map (·.1)
  · obtain ⟨front, lines, back, shape, printed, quiet⟩ := split_layout h fields layout key known
    obtain ⟨v, line, rfl, literal, inline⟩ := form lines printed
    have found := single_inline key.text v line front back (word_key key) inline
      (fun l hl => (quiet l hl).2)
    rw [integer, shape, List.append_assoc, List.singleton_append, found,
      hexLiteral_literal n v literal, Option.getD_some]
  · rw [integer, single_absent key.text _
      (fun l hl => (quiet_fields h fields layout.printed key known l hl).2),
      left (layout.default key known)]
    rfl

theorem single_layout (h : Header) (fields : List (Key × List Text)) (layout : Layout h fields)
    (key : Key) (v : Text) (form : ∀ lines, Printed h lines key → PrintedText key v lines)
    (left : Default h key → v = []) : single key.text (fields.flatMap (·.2)) = v := by
  by_cases known : key ∈ fields.map (·.1)
  · obtain ⟨front, lines, back, shape, printed, quiet⟩ := split_layout h fields layout key known
    obtain ⟨line, rfl, _, inline⟩ := form lines printed
    rw [shape, List.append_assoc, List.singleton_append]
    exact single_inline key.text v line front back (word_key key) inline
      (fun l hl => (quiet l hl).2)
  · rw [left (layout.default key known)]
    exact single_absent key.text _
      (fun l hl => (quiet_fields h fields layout.printed key known l hl).2)

theorem elements_written (h : Header) (fields : List (Key × List Text)) (layout : Layout h fields)
    (key : Key) (known : key ∈ fields.map (·.1)) :
    ∃ lines, Printed h lines key ∧ ∀ vs default, PrintedTexts key vs lines →
      (vs = [] → default = []) → elements key.text default (fields.flatMap (·.2)) = vs := by
  obtain ⟨front, lines, back, shape, printed, quiet⟩ := split_layout h fields layout key known
  refine ⟨lines, printed, ?_⟩
  intro vs default texts default_empty
  rw [shape]
  exact elements_braced key.text default vs front lines back texts.2 texts.1 default_empty
    (fun l hl => (quiet l hl).1)

theorem elements_left_out (h : Header) (fields : List (Key × List Text)) (layout : Layout h fields)
    (key : Key) (absent : key ∉ fields.map (·.1)) (default : List Text) :
    elements key.text default (fields.flatMap (·.2)) = default.map cleaned :=
  elements_absent key.text default _
    (fun l hl => (quiet_fields h fields layout.printed key absent l hl).1)

theorem filterMap_literals (ns : List Int32) (vs : List Text)
    (literals : List.Forall₂ Literal ns vs) : vs.filterMap hexLiteral? = ns := by
  induction literals with
  | nil => rfl
  | cons literal _ ih => rw [List.filterMap_cons, hexLiteral_literal _ _ literal, ih]

theorem version_layout (h : Header) (fields : List (Key × List Text)) (layout : Layout h fields)
    (key : Key) (ns : List Int32) (default : List String) (nonempty : ns ≠ [])
    (form : ∀ lines, Printed h lines key → PrintedInts key ns lines)
    (left : Default h key →
      ns = ((default.map String.toList).map cleaned).filterMap hexLiteral?) :
    ofRegion?.versionOf key.text default (fields.flatMap (·.2)) = ns := by
  unfold ofRegion?.versionOf
  by_cases known : key ∈ fields.map (·.1)
  · obtain ⟨lines, printed, found⟩ := elements_written h fields layout key known
    obtain ⟨vs, literals, braced⟩ := form lines printed
    rw [found vs _ ⟨plain_literals ns vs literals, braced⟩, filterMap_literals ns vs literals]
    rintro rfl
    cases literals
    exact absurd rfl nonempty
  · rw [elements_left_out h fields layout key known, left (layout.default key known)]

theorem data1_layout (h : Header) (fields : List (Key × List Text)) (layout : Layout h fields) :
    (elements Key.d1.text [] (fields.flatMap (·.2))).map Text.unescape = h.data1 := by
  by_cases known : .d1 ∈ fields.map (·.1)
  · obtain ⟨lines, ⟨escaped, meaning, printed⟩, found⟩ :=
      elements_written h fields layout .d1 known
    rw [found escaped [] printed (fun _ => rfl), meaning]
  · exact (layout.default .d1 known).elim

theorem data2_layout (h : Header) (fields : List (Key × List Text)) (layout : Layout h fields) :
    elements Key.d2.text [] (fields.flatMap (·.2)) = h.data2 := by
  by_cases known : .d2 ∈ fields.map (·.1)
  · obtain ⟨lines, printed, found⟩ := elements_written h fields layout .d2 known
    exact found h.data2 [] printed (fun _ => rfl)
  · rw [elements_left_out h fields layout .d2 known, layout.default .d2 known]
    rfl

theorem ofRegion_layout (h : Header) (fields : List (Key × List Text)) (layout : Layout h fields)
    (bytecode : h.bytecodeVersion ≠ []) (metadata : h.metadataVersion ≠ []) :
    ofRegion? (fields.flatMap (·.2)) = some h := by
  have data1 := data1_layout h fields layout
  have data2 := data2_layout h fields layout
  have kind := integer_layout h fields layout .k h.kind 1 (fun _ => id) id
  have extraInt := integer_layout h fields layout .xi h.extraInt 0 (fun _ => id) id
  have extraString := single_layout h fields layout .xs h.extraString (fun _ => id) id
  have packageName := single_layout h fields layout .pn h.packageName (fun _ => id) id
  have bv := version_layout h fields layout .bv h.bytecodeVersion ["0x1", "0x1", "0x3"] bytecode
    (fun _ => id) (fun default => default.trans (by decide))
  have mv := version_layout h fields layout .mv h.metadataVersion ["0x1", "0x1", "0xd"] metadata
    (fun _ => id) (fun default => default.trans (by decide))
  simp only [Key.text] at data1 data2 kind extraInt extraString packageName bv mv
  simp only [ofRegion?, ofPayload?, data1, dif_neg h.data1_ne_nil, Option.map_some, kind, extraInt,
    extraString, packageName, bv, mv, data2]

/-- A header is read back from every text with its block: from lines without the opening mark, a
line that holds it, the written fields, and a line with the closing mark. -/
theorem ofSmali_layout (h : Header) (fields : List (Key × List Text)) (layout : Layout h fields)
    (bytecode : h.bytecodeVersion ≠ []) (metadata : h.metadataVersion ≠ [])
    (smali : Text) (before after : List Text) (start stop : Text)
    (lines : smali.lines = before ++ start :: (fields.flatMap (·.2) ++ stop :: after))
    (outside : ∀ line ∈ before, Text.contains openingMark line = false)
    (opens : Text.contains openingMark start = true)
    (closes : Text.contains closingMark stop = true) : ofSmali? smali = some h := by
  have inner : ∀ line ∈ fields.flatMap (·.2), Text.contains closingMark line = false := by
    intro line member
    obtain ⟨key, _, of⟩ := lineOf_mem h fields layout.printed line member
    exact (Text.contains_eq_false_iff _ _).mpr (closingMark_absent key.text line (word_key key) of)
  rw [ofSmali?, Region.ofSmali, lines,
    between_block openingMark closingMark before _ after start stop outside opens inner closes]
  exact ofRegion_layout h fields layout bytecode metadata

/-- A file facade with a quote, a comma and what looks like a key in a name. -/
def facade : Header where
  kind := 2
  data1 := ["Ab".toList]
  data2 := ["k = 0x7, \"".toList, []]
  data1_ne_nil := nofun

def facadeFields : List (Key × List Text) :=
  [(.d2, ["    d2 = \x7b".toList, "      \"k = 0x7, \"\",".toList, "      \"\"".toList,
      "    \x7d,".toList]),
   (.k, ["\tk = 0x02".toList]),
   (.d1, ["    d1 = \x7b".toList, "      \"\\u0041b\"".toList, "    \x7d".toList])]

def facadeSmali : Text :=
  ([".class LA;".toList, ".annotation runtime Lkotlin/Metadata;".toList] ++
    facadeFields.flatMap (·.2) ++ [".end annotation".toList]).flatMap (· ++ ['\n'])

theorem layout_facade : Layout facade facadeFields where
  unique := by decide
  default := by
    intro key absent
    cases key with
    | k => exact absurd (by decide) absent
    | d1 => exact absurd (by decide) absent
    | d2 => exact absurd (by decide) absent
    | _ => rfl
  printed := by
    have two : Literal 2 "0x02".toList :=
      ⟨"02".toList, rfl, by decide, List.all_eq_true.mp (by decide), by decide⟩
    simp only [facadeFields, List.forall_mem_cons]
    refine ⟨⟨by decide, ?_⟩, ⟨"0x02".toList, _, rfl, two, ?_⟩,
      ⟨["\\u0041b".toList], ?_, by decide, ?_⟩, nofun⟩
    · refine ⟨_, [_, _], _, rfl, ⟨"    ".toList, [], by decide, by decide, rfl⟩, ?_,
        [','], .inr rfl, "    ".toList, [], by decide, by decide, rfl⟩
      exact .cons ⟨_, [','], .quoted, .inr rfl, "      ".toList, [], by decide, by decide, rfl⟩
        (.cons ⟨_, [], .quoted, .inl rfl, "      ".toList, [], by decide, by decide, rfl⟩ .nil)
    · exact ⟨_, [], .bare 2 two, .inl rfl, ['\t'], [], by decide, by decide, rfl⟩
    · decide +kernel
    · exact ⟨_, [_], _, rfl, ⟨"    ".toList, [], by decide, by decide, rfl⟩,
        .cons ⟨_, [], .quoted, .inl rfl, "      ".toList, [], by decide, by decide, rfl⟩ .nil,
        [], .inl rfl, "    ".toList, [], by decide, by decide, rfl⟩

theorem ofSmali_layout_facade :
    Layout facade facadeFields ∧ ofSmali? facadeSmali = some facade :=
  ⟨layout_facade, ofSmali_layout facade facadeFields layout_facade (by decide) (by decide)
    facadeSmali [".class LA;".toList] [] ".annotation runtime Lkotlin/Metadata;".toList
    ".end annotation".toList (by decide +kernel) (by decide) (by decide) (by decide)⟩

end SmaliReport.Header
