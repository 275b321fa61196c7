import Mathlib.Data.List.Forall2
import SmaliReport.Header
import SmaliReport.Proofs.Region.Search
import SmaliReport.Proofs.Text.Trimming

/-!
What the texts in one array can change. A value on a line of its own is looked for at the start of
its line, where a quoted text does not reach. An array is looked for anywhere in a line, so a text
can open one, and an array that is not closed takes the elements of the next one. Where neither
happens, the texts of `d2` change nothing but `d2`.
-/

namespace SmaliReport

open Text (Blank)

namespace Region

/-- A text that ends neither its line nor an array nor a block. -/
structure Inert (t : Text) : Prop where
  feed : '\n' ∉ t
  brace : '\x7d' ∉ t
  mark : Text.contains closingMark t = false

/-- A text in quotes with something before and behind it. -/
def quotedLine (lead inner tail : Text) : Text := lead ++ '"' :: (inner ++ '"' :: tail)

/-- A line with another text between its quotes, or as it was. -/
inductive Requoted : Text → Text → Prop where
  | same (line : Text) : Requoted line line
  | quoted {lead inner other : Text} (tail : Text) : Blank lead → Inert inner → Inert other →
      Requoted (quotedLine lead inner tail) (quotedLine lead other tail)

def opener (key : Text) : Text := key ++ " = \x7b".toList

/-- The lines of a region up to the opener of an array, its elements, and what is left. -/
structure Divides (key : Text) (before body after : List Text) : Prop where
  opened : ∃ front line, before = front ++ [line] ∧
    (∀ l ∈ front, Text.contains (opener key) l = false) ∧ Text.contains (opener key) line = true
  inner : ∀ line ∈ body, Text.contains ['\x7d'] line = false
  closed : ∀ line, after.head? = some line → Text.contains ['\x7d'] line = true

/-- Is the array of a key opened and closed again in these lines? -/
def finished (key : Text) (lines : List Text) : Bool :=
  ((lines.dropWhile fun line => !Text.contains (opener key) line).drop 1).any
    (Text.contains ['\x7d'])

/-- The array of a key takes none of the lines of `body`: it is closed before them, or is opened
neither before nor in them. -/
def Aside (key : Text) (before body : List Text) : Prop :=
  finished key before = true ∨ ∀ line ∈ before ++ body, Text.contains (opener key) line = false

instance (key : Text) (before body : List Text) : Decidable (Aside key before body) :=
  inferInstanceAs (Decidable (_ ∨ _))

theorem Requoted.closes {line other : Text} (texts : Requoted line other) :
    Text.contains ['\x7d'] other = Text.contains ['\x7d'] line := by
  cases texts with
  | same => rfl
  | quoted tail blank inert other_inert =>
    have one (t : Text) : Text.contains ['\x7d'] t = true ↔ '\x7d' ∈ t := by
      rw [Text.contains_iff, List.singleton_infix_iff]
    rw [Bool.eq_iff_iff, one, one]
    simp [quotedLine, inert.brace, other_inert.brace]

/-- No word but one that starts with a quote stands before an equal sign at the start of a line
that starts with a quote. -/
theorem quoted_unkeyed {key lead : Text} (bare : key.head? ≠ some '"') (blank : Blank lead)
    (inner tail : Text) :
    (key ++ " =".toList).isPrefixOf (quotedLine lead inner tail).trim = false := by
  obtain ⟨rest, shape⟩ := Text.trim_visible (c := '"') (by decide) (inner ++ '"' :: tail)
  rw [quotedLine, Text.trim_blank_append blank, shape]
  cases key with
  | nil => rfl
  | cons c key =>
    have other : (c == '"') = false := by simpa using bare
    rw [List.cons_append, List.isPrefixOf, other, Bool.false_and]

theorem single_requoted {key : Text} (bare : key.head? ≠ some '"') {rows others : List Text}
    (texts : List.Forall₂ Requoted rows others) : single key rows = single key others := by
  have found : rows.find? (fun line => (key ++ " =".toList).isPrefixOf line.trim) =
      others.find? fun line => (key ++ " =".toList).isPrefixOf line.trim := by
    induction texts with
    | nil => rfl
    | cons first _ ih =>
      cases first with
      | same => rw [List.find?_cons, List.find?_cons, ih]
      | quoted tail blank _ _ =>
        rw [List.find?_cons, List.find?_cons, quoted_unkeyed bare blank, quoted_unkeyed bare blank,
          ih]
  rw [single, single, found]

theorem integer_requoted {key : Text} (bare : key.head? ≠ some '"') (default : Int32)
    {rows others : List Text} (texts : List.Forall₂ Requoted rows others) :
    integer key default rows = integer key default others := by
  rw [integer, integer, single_requoted bare texts]

theorem between_unopened {opening closing : Text} {front : List Text}
    (quiet : ∀ line ∈ front, Text.contains opening line = false) (rest : List Text) :
    between opening closing (front ++ rest) = between opening closing rest := by
  rw [between, between, List.dropWhile_append_of_pos (by simpa using quiet)]

/-- Once an array is closed, the lines behind it do not change it. -/
theorem between_finished {key : Text} {front : List Text} (done : finished key front = true)
    (rest : List Text) :
    between (opener key) ['\x7d'] (front ++ rest) = between (opener key) ['\x7d'] front := by
  rw [finished] at done
  rw [between, between, List.dropWhile_append]
  generalize front.dropWhile (fun line => !Text.contains (opener key) line) = opened at done
  cases opened with
  | nil => cases done
  | cons line opened =>
    obtain ⟨stop, member, closes⟩ := List.any_eq_true.mp done
    simp only [List.drop_one, List.tail_cons] at member
    have short : ¬(opened.takeWhile fun line => !Text.contains ['\x7d'] line).length =
        opened.length := by
      intro whole
      have all := List.takeWhile_eq_self_iff.mp ((List.takeWhile_prefix _).eq_of_length whole)
      simpa [closes] using all stop member
    simp only [List.isEmpty_cons, Bool.false_eq_true, if_false, List.cons_append, List.drop_one,
      List.tail_cons, List.takeWhile_append, if_neg short]

variable {key : Text} {before body others after : List Text}

theorem between_aside (after : List Text) (aside : Aside key before body)
    (other_aside : Aside key before others) :
    between (opener key) ['\x7d'] (before ++ body ++ after) =
      between (opener key) ['\x7d'] (before ++ others ++ after) := by
  rcases aside with done | quiet
  · rw [List.append_assoc, List.append_assoc, between_finished done, between_finished done]
  · rcases other_aside with done | other_quiet
    · rw [List.append_assoc, List.append_assoc, between_finished done, between_finished done]
    · rw [between_unopened quiet, between_unopened other_quiet]

theorem elements_eq (key : Text) (default : List Text) (region : Region) :
    elements key default region =
      (if (between (opener key) ['\x7d'] region).isEmpty then default
        else between (opener key) ['\x7d'] region).map cleaned := rfl

theorem elements_aside (default after : List Text) (aside : Aside key before body)
    (other_aside : Aside key before others) :
    elements key default (before ++ body ++ after) =
      elements key default (before ++ others ++ after) := by
  rw [elements_eq, elements_eq, between_aside after aside other_aside]

theorem between_divided (array : Divides key before body after) :
    between (opener key) ['\x7d'] (before ++ body ++ after) = body := by
  obtain ⟨⟨front, line, rfl, quiet, opens⟩, inner, closed⟩ := array
  cases after with
  | nil =>
    have shape : front ++ [line] ++ body ++ [] = front ++ line :: body := by simp
    rw [shape, between, List.dropWhile_append_of_pos (by simpa using quiet),
      List.dropWhile_cons_of_neg (by simp [opens]), List.drop_one, List.tail_cons]
    exact List.takeWhile_eq_self_iff.mpr (by simpa using inner)
  | cons stop after =>
    have shape : front ++ [line] ++ body ++ stop :: after =
        front ++ line :: (body ++ stop :: after) := by
      simp
    rw [shape]
    exact between_block _ _ front body after line stop quiet opens inner (closed stop rfl)

theorem elements_divided (array : Divides key before body after) :
    elements key [] (before ++ body ++ after) = body.map cleaned := by
  rw [elements_eq, between_divided array]
  cases body <;> rfl

theorem Divides.requoted (array : Divides key before body after)
    (texts : List.Forall₂ Requoted body others) : Divides key before others after where
  opened := array.opened
  inner := by
    have inner := array.inner
    clear array
    induction texts with
    | nil => exact nofun
    | cons first _ ih =>
      rw [List.forall_mem_cons] at inner
      exact List.forall_mem_cons.mpr ⟨first.closes.trans inner.1, ih inner.2⟩
  closed := array.closed

theorem requoted_region (before after : List Text) (texts : List.Forall₂ Requoted body others) :
    List.Forall₂ Requoted (before ++ body ++ after) (before ++ others ++ after) := by
  have same (rows : List Text) : List.Forall₂ Requoted rows rows :=
    List.forall₂_same.mpr fun line _ => .same line
  exact List.rel_append (List.rel_append (same before) texts) (same after)

end Region

namespace Header

open Region

/-- The headers agree in all but `d2`. -/
def Beside (h other : Header) : Prop := { h with data2 := other.data2 } = other

/-- The texts of `d2` go to `d2` and nowhere else, if the arrays of `d1`, `bv` and `mv` stay aside
from its elements: there is a header with the one texts if there is one with the others, and the two
agree in every other field. -/
theorem ofRegion_beside {before body others after : List Text}
    (array : Divides "d2".toList before body after) (texts : List.Forall₂ Requoted body others)
    (aside : ∀ key ∈ ["d1".toList, "bv".toList, "mv".toList],
      Aside key before body ∧ Aside key before others) :
    Option.Rel (fun h other => h.Beside other ∧
        h.data2 = body.map cleaned ∧ other.data2 = others.map cleaned)
      (ofRegion? (before ++ body ++ after)) (ofRegion? (before ++ others ++ after)) := by
  have whole := requoted_region before after texts
  have int (key : String) (bare : key.toList.head? ≠ some '"') (default : Int32) :=
    integer_requoted bare default whole
  have text (key : String) (bare : key.toList.head? ≠ some '"') := single_requoted bare whole
  have array_of (key : Text) (known : key ∈ ["d1".toList, "bv".toList, "mv".toList])
      (default : List Text) := elements_aside default after (aside key known).1 (aside key known).2
  simp only [ofRegion?, ofRegion?.versionOf, int "k" (by decide), int "xi" (by decide),
    text "xs" (by decide), text "pn" (by decide), array_of "d1".toList (by simp),
    array_of "bv".toList (by simp), array_of "mv".toList (by simp), elements_divided array,
    elements_divided (array.requoted texts)]
  cases ofPayload? ((elements "d1".toList [] (before ++ others ++ after)).map Text.unescape) with
  | none => exact .none
  | some header => exact .some ⟨rfl, rfl, rfl⟩

/-- Up to the opener of `d2`, with two arrays that are closed. -/
def frontLines : List Text :=
  ["k = 0x2", "d1 = \x7b", "    \"part\"", "\x7d", "bv = \x7b", "    0x1,", "    0x2", "\x7d",
    "d2 = \x7b"].map String.toList

def backLines : List Text := ["\x7d", "mv = \x7b", "0x1", "\x7d", "xs = \"s\""].map String.toList

/-- Texts that look like fields, and one that looks like an array that is closed already. -/
def fieldTexts : List Text :=
  [quotedLine "    ".toList "k = 0x9".toList ",".toList,
    quotedLine "    ".toList "bv = \x7b".toList [], "    0x5".toList]

def plainTexts : List Text :=
  [quotedLine "    ".toList "say \"hi\"".toList ",".toList, quotedLine "    ".toList [] [],
    "    0x5".toList]

theorem requoted_fields : List.Forall₂ Requoted fieldTexts plainTexts :=
  .cons (.quoted _ (by decide) ⟨by decide, by decide, by decide⟩ ⟨by decide, by decide, by decide⟩)
    (.cons (.quoted _ (by decide) ⟨by decide, by decide, by decide⟩
      ⟨by decide, by decide, by decide⟩) (.cons (.same _) .nil))

theorem ofRegion_beside_fields :
    Divides "d2".toList frontLines fieldTexts backLines ∧
    List.Forall₂ Requoted fieldTexts plainTexts ∧
    (∀ key ∈ ["d1".toList, "bv".toList, "mv".toList],
      Aside key frontLines fieldTexts ∧ Aside key frontLines plainTexts) ∧
    (ofRegion? (frontLines ++ fieldTexts ++ backLines)).isSome = true ∧
    Option.Rel (fun h other => h.Beside other ∧
        h.data2 = fieldTexts.map cleaned ∧ other.data2 = plainTexts.map cleaned)
      (ofRegion? (frontLines ++ fieldTexts ++ backLines))
      (ofRegion? (frontLines ++ plainTexts ++ backLines)) := by
  have array : Divides "d2".toList frontLines fieldTexts backLines :=
    ⟨⟨frontLines.dropLast, _, rfl, by decide, by decide⟩, by decide, by decide⟩
  have aside : ∀ key ∈ ["d1".toList, "bv".toList, "mv".toList],
      Aside key frontLines fieldTexts ∧ Aside key frontLines plainTexts := by
    decide
  exact ⟨array, requoted_fields, aside, by decide +kernel,
    ofRegion_beside array requoted_fields aside⟩

/-- The lines of a payload, up to the opener of `d2`. -/
def payloadLines : List Text := ["d1 = \x7b", "\"part\"", "\x7d", "d2 = \x7b"].map String.toList

/-- The same with an array that is still open at the opener of `d2`. -/
def nestedLines : List Text :=
  ["d1 = \x7b", "\"part\"", "\x7d", "mv = \x7b", "d2 = \x7b"].map String.toList

def quotedTexts (texts : List String) : List Text :=
  texts.map fun t => quotedLine [] t.toList []

/-- A text of `d2` opens another array, and it is an element of an array that is open around it. -/
theorem ofRegion_influenced :
    (Divides "d2".toList payloadLines (quotedTexts ["a", "0x7"]) ["\x7d".toList] ∧
      List.Forall₂ Requoted (quotedTexts ["a", "0x7"]) (quotedTexts ["bv = \x7b", "0x7"]) ∧
      (ofRegion? (payloadLines ++ quotedTexts ["a", "0x7"] ++ ["\x7d".toList])).map
        (·.bytecodeVersion) = some [1, 1, 3] ∧
      (ofRegion? (payloadLines ++ quotedTexts ["bv = \x7b", "0x7"] ++ ["\x7d".toList])).map
        (·.bytecodeVersion) = some [7]) ∧
    Divides "d2".toList nestedLines (quotedTexts ["0x5"]) ["\x7d".toList] ∧
      List.Forall₂ Requoted (quotedTexts ["0x5"]) (quotedTexts ["0x6"]) ∧
      (ofRegion? (nestedLines ++ quotedTexts ["0x5"] ++ ["\x7d".toList])).map
        (·.metadataVersion) = some [5] ∧
      (ofRegion? (nestedLines ++ quotedTexts ["0x6"] ++ ["\x7d".toList])).map
        (·.metadataVersion) = some [6] := by
  refine ⟨⟨?_, ?_, by decide +kernel, by decide +kernel⟩, ?_, ?_, by decide +kernel,
    by decide +kernel⟩
  · exact ⟨⟨payloadLines.dropLast, _, rfl, by decide, by decide⟩, by decide, by decide⟩
  · exact .cons (.quoted [] (List.forall_mem_nil _) ⟨by decide, by decide, by decide⟩
      ⟨by decide, by decide, by decide⟩) (.cons (.same _) .nil)
  · exact ⟨⟨nestedLines.dropLast, _, rfl, by decide, by decide⟩, by decide, by decide⟩
  · exact .cons (.quoted [] (List.forall_mem_nil _) ⟨by decide, by decide, by decide⟩
      ⟨by decide, by decide, by decide⟩) .nil

end Header

end SmaliReport
