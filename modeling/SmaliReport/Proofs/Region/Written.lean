import SmaliReport.Proofs.Text.Digits
import SmaliReport.Proofs.Text.Fragments
import SmaliReport.Region

/-! Written fields of a region. A value is written in quotes or, if it is a literal, as it is; one
comma may follow it. The forms say nothing about the search that finds them again. -/

namespace SmaliReport.Region

open Text (Blank Padded Solid)

/-- The literals of the integer, with digits of either case and any number of leading zeros. -/
def Literal (n : Int32) (v : Text) : Prop :=
  ∃ digits, v = '0' :: 'x' :: digits ∧ digits ≠ [] ∧
    (∀ c ∈ digits, Text.isDigit 16 c = true) ∧ (Text.value 16 digits : Int) = n.toInt

inductive Written (v : Text) : Text → Prop where
  | quoted : Written v ('"' :: v ++ ['"'])
  | bare (n : Int32) : Literal n v → Written v v

def Comma (t : Text) : Prop := t = [] ∨ t = [',']

/-- The value on a line of its own. -/
def Element (v line : Text) : Prop :=
  ∃ w comma, Written v w ∧ Comma comma ∧ Padded (w ++ comma) line

/-- The value behind its key. -/
def Inline (key v line : Text) : Prop :=
  ∃ w comma, Written v w ∧ Comma comma ∧ Padded (key ++ " = ".toList ++ (w ++ comma)) line

def Opener (key line : Text) : Prop := Padded (key ++ " = \x7b".toList) line

def Closer (line : Text) : Prop := ∃ comma, Comma comma ∧ Padded ('\x7d' :: comma) line

/-- The values of an array between its opening and its closing line. -/
def Braced (key : Text) (vs : List Text) (lines : List Text) : Prop :=
  ∃ opener body closer, lines = opener :: (body ++ [closer]) ∧ Opener key opener ∧
    List.Forall₂ Element vs body ∧ Closer closer

/-- Nothing in the text looks like the end of an array or a block, or like a key's opener. -/
def Plain (v : Text) : Prop :=
  '\x7d' ∉ v ∧ Text.contains " = \x7b".toList v = false ∧ Text.contains closingMark v = false

instance (v : Text) : Decidable (Plain v) := by unfold Plain; infer_instance

theorem mem_literal (n : Int32) (v : Text) (literal : Literal n v) (c : Char) (member : c ∈ v) :
    c = 'x' ∨ (48 ≤ c.toNat ∧ c.toNat ≤ 57) ∨ (97 ≤ c.toNat ∧ c.toNat ≤ 122) ∨
      (65 ≤ c.toNat ∧ c.toNat ≤ 90) := by
  obtain ⟨digits, rfl, _, hex, _⟩ := literal
  rcases List.mem_cons.mp member with rfl | member
  · exact .inr (.inl (by decide))
  · rcases List.mem_cons.mp member with rfl | member
    · exact .inl rfl
    · exact .inr (Text.hex_digit_range c (hex c member))

theorem not_mem_literal (n : Int32) (v : Text) (literal : Literal n v) :
    '\x7b' ∉ v ∧ '\x7d' ∉ v ∧ '.' ∉ v := by
  refine ⟨fun h => ?_, fun h => ?_, fun h => ?_⟩ <;>
    exact absurd (mem_literal n v literal _ h) (by decide)

theorem plain_literal (n : Int32) (v : Text) (literal : Literal n v) : Plain v := by
  obtain ⟨opener, closer, dot⟩ := not_mem_literal n v literal
  refine ⟨closer, ?_, ?_⟩
  · exact (Text.contains_eq_false_iff _ v).mpr (Text.not_infix_of_not_mem _ v _ (by decide) opener)
  · exact (Text.contains_eq_false_iff _ v).mpr (Text.not_infix_of_not_mem _ v _ (by decide) dot)

theorem solid_digits (digits : Text) (nonempty : digits ≠ [])
    (hex : ∀ c ∈ digits, Text.isDigit 16 c = true) : Solid ("0x".toList ++ digits) := by
  refine ⟨⟨'0', rfl, by decide⟩, digits.getLast nonempty, ?_, ?_⟩
  · rw [List.getLast?_append_of_ne_nil _ nonempty, List.getLast?_eq_some_getLast nonempty]
  · exact Text.hex_digit_visible _ (hex _ (List.getLast_mem nonempty))

theorem solid_literal (n : Int32) (v : Text) (literal : Literal n v) : Solid v := by
  obtain ⟨digits, rfl, nonempty, hex, _⟩ := literal
  exact solid_digits digits nonempty hex

theorem solid_written (v w : Text) (written : Written v w) : Solid w := by
  cases written with
  | quoted => exact ⟨⟨'"', rfl, by decide⟩, '"', by simp [List.getLast?_cons], by decide⟩
  | bare n literal => exact solid_literal n v literal

theorem solid_comma (w comma : Text) (solid : Solid w) (tail : Comma comma) :
    Solid (w ++ comma) := by
  rcases tail with rfl | rfl
  · rwa [List.append_nil]
  · simpa using Text.solid_ends w [] [','] solid ⟨⟨',', rfl, by decide⟩, ',', rfl, by decide⟩

theorem written_cons (v w : Text) (written : Written v w) :
    ∃ c rest, w = c :: rest ∧ (c = '"' ∨ c = '0') := by
  cases written with
  | quoted => exact ⟨'"', v ++ ['"'], rfl, .inl rfl⟩
  | bare n literal =>
    obtain ⟨digits, rfl, _⟩ := literal
    exact ⟨'0', 'x' :: digits, rfl, .inr rfl⟩

/-- A fragment with a character that stands only inside the value stands inside it as a whole. -/
theorem not_infix_written (part v w left right : Text) (c : Char) (written : Written v w)
    (free : '"' ∉ part) (own : c ∈ part) (before : c ∉ left) (behind : c ∉ right)
    (bare : ∀ n, Literal n v → c ∉ v) (inner : ¬ part <:+: v) :
    ¬ part <:+: left ++ w ++ right := by
  cases written with
  | quoted =>
    intro h
    rcases Text.infix_quoted part left v right free h with h | h | h
    · exact Text.not_infix_of_not_mem part left c own before h
    · exact inner h
    · exact Text.not_infix_of_not_mem part right c own behind h
  | bare n literal =>
    have absent : c ∉ left ++ v ++ right := by
      simp only [List.mem_append, not_or]
      exact ⟨⟨before, bare n literal⟩, behind⟩
    exact Text.not_infix_of_not_mem part _ c own absent

theorem unquoted_literal (n : Int32) (v : Text) (literal : Literal n v) :
    ['"'].isPrefixOf? v = none := by
  obtain ⟨digits, rfl, _⟩ := literal
  rfl

theorem strip_comma (w comma : Text) (last : ∃ c, w.getLast? = some c ∧ c ≠ ',')
    (tail : Comma comma) : ([','].isSuffixOf? (w ++ comma)).getD (w ++ comma) = w := by
  rcases tail with rfl | rfl
  · obtain ⟨c, hc, other⟩ := last
    have kept : [','].isSuffixOf? (w ++ []) = none := by
      rw [Option.eq_none_iff_forall_ne_some]
      intro t ht
      have whole := List.append_eq_of_isSuffixOf?_eq_some ht
      rw [List.append_nil] at whole
      rw [← whole, List.getLast?_concat] at hc
      exact other (Option.some.inj hc).symm
    rw [kept, Option.getD_none, List.append_nil]
  · have found : [','].isSuffixOf? (w ++ [',']) = some w :=
      List.isSuffixOf?_eq_some_iff_append_eq.mpr rfl
    rw [found, Option.getD_some]

theorem written_last (v w : Text) (written : Written v w) :
    ∃ c, w.getLast? = some c ∧ c ≠ ',' := by
  cases written with
  | quoted => exact ⟨'"', by simp [List.getLast?_cons], by decide⟩
  | bare n literal =>
    obtain ⟨_, c, hc, _⟩ := solid_literal n v literal
    refine ⟨c, hc, ?_⟩
    rintro rfl
    exact absurd (mem_literal n v literal _ (List.mem_of_getLast? hc)) (by decide)

theorem cleaned_written (v w comma raw : Text) (written : Written v w) (tail : Comma comma)
    (padded : Padded (w ++ comma) raw) : cleaned raw = v := by
  have core := Text.trim_padded _ raw padded (solid_comma w comma (solid_written v w written) tail)
  rw [cleaned, core, strip_comma w comma (written_last v w written) tail]
  cases written with
  | quoted =>
    have inner : ['"'].isSuffixOf? (v ++ ['"']) = some v :=
      List.isSuffixOf?_eq_some_iff_append_eq.mpr rfl
    have opened : ['"'].isPrefixOf? ('"' :: v ++ ['"']) = some (v ++ ['"']) :=
      List.isPrefixOf?_eq_some_iff_append_eq.mpr rfl
    rw [opened, Option.bind_some, inner, Option.getD_some]
  | bare n literal => rw [unquoted_literal n v literal, Option.bind_none, Option.getD_none]

theorem cleaned_element (v line : Text) (element : Element v line) : cleaned line = v := by
  obtain ⟨w, comma, written, tail, padded⟩ := element
  exact cleaned_written v w comma line written tail padded

theorem hexLiteral_literal (n : Int32) (v : Text) (literal : Literal n v) :
    hexLiteral? v = some n := by
  have solid := solid_literal n v literal
  obtain ⟨digits, rfl, nonempty, hex, exact⟩ := literal
  have core : Text.trim ('0' :: 'x' :: digits) = '0' :: 'x' :: digits :=
    Text.trim_padded _ _ ⟨[], [], nofun, nofun, by simp⟩ solid
  have number : Text.number? 16 digits = some (Text.value 16 digits) := by
    rw [Text.number?, if_pos]
    simpa [nonempty] using hex
  have upper : n.toInt < 2 ^ 31 := n.toInt_lt
  have fits : Text.value 16 digits ≤ 0x7FFFFFFF := by omega
  have back : Int32.ofNat (Text.value 16 digits) = n := by
    rw [← Int32.ofInt_eq_ofNat, exact, Int32.ofInt_toInt]
  rw [hexLiteral?, core]
  simp [List.isPrefixOf?, number, fits, back]

end SmaliReport.Region
