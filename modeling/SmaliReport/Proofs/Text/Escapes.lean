import Mathlib.Data.List.Chain
import Mathlib.Data.List.Forall2
import SmaliReport.Proofs.Text.Digits
import SmaliReport.Text.Escape

/-!
The written forms of a character in a string literal: the character itself, a letter escape, a
backslash that says nothing, an octal escape, or its code behind `\u`. A literal is read form by
form, so long as no octal escape has room for the digit behind it.
-/

namespace SmaliReport.Text

def letters : List (Char × Char) :=
  [('b', '\x08'), ('t', '\t'), ('n', '\n'), ('f', '\x0C'), ('r', '\r'), ('"', '"'),
   ('\x27', '\x27'), ('\\', '\\')]

/-- How many digits an octal escape takes, by the first of them. -/
def octalRoom (first : Char) : Nat := if first ≤ '3' then 3 else 2

/-- The digits of an octal escape, up to `\377`. -/
structure Octal (first : Char) (rest : Text) : Prop where
  few : rest.length ≤ 2
  digits : ∀ d ∈ first :: rest, isDigit 8 d = true
  small : value 8 (first :: rest) ≤ 0o377

/-- An octal escape with room for one more digit has none behind it. -/
def OctalEnds (first : Char) (rest behind : Text) : Prop :=
  rest.length + 1 < octalRoom first → ∀ c ∈ behind.head?, isDigit 8 c = false

instance (first : Char) (rest behind : Text) : Decidable (OctalEnds first rest behind) :=
  have : Decidable (∀ c ∈ behind.head?, isDigit 8 c = false) := Option.decidableForallMem _
  inferInstanceAs (Decidable (_ → _))

/-- A character as it is written. -/
inductive Token where
  | plain (c : Char) (visible : c ≠ '\\')
  | letter (c meaning : Char) (known : (c, meaning) ∈ letters)
  | dropped (c : Char) (other : c ∉ letters.map (·.1)) (code : c ≠ 'u')
      (digit : isDigit 8 c = false)
  | octal (first : Char) (rest : Text) (digits : Octal first rest)
  | unicode (more : Nat) (digits : Text) (four : digits.length = 4)
      (hex : ∀ d ∈ digits, isDigit 16 d = true)

namespace Token

def text : Token → Text
  | plain c _ => [c]
  | letter c _ _ => ['\\', c]
  | dropped c _ _ _ => ['\\', c]
  | octal first rest _ => '\\' :: first :: rest
  | unicode more digits _ _ => '\\' :: 'u' :: (List.replicate more 'u' ++ digits)

def char : Token → Char
  | plain c _ => c
  | letter _ meaning _ => meaning
  | dropped c _ _ _ => c
  | octal first rest _ => Char.ofNat (value 8 (first :: rest))
  | unicode _ digits _ _ => scalar (value 16 digits)

/-- The token is not read on into the text behind it. -/
def Ends (behind : Text) : Token → Prop
  | octal first rest _ => OctalEnds first rest behind
  | _ => True

def Apart (t next : Token) : Prop := t.Ends next.text

instance (behind : Text) (t : Token) : Decidable (t.Ends behind) :=
  match t with
  | octal first rest _ => inferInstanceAs (Decidable (OctalEnds first rest behind))
  | plain _ _ | letter _ _ _ | dropped _ _ _ _ | unicode _ _ _ _ => isTrue trivial

instance : DecidableRel Apart := fun t next => inferInstanceAs (Decidable (t.Ends next.text))

theorem text_ne_nil (t : Token) : t.text ≠ [] := by
  cases t <;> exact List.cons_ne_nil _ _

theorem ends_nil (t : Token) : t.Ends [] := by
  cases t with
  | octal first rest => exact fun _ _ unread => nomatch unread
  | _ => exact trivial

theorem ends_append {t next : Token} (apart : t.Apart next) (behind : Text) :
    t.Ends (next.text ++ behind) := by
  have head : (next.text ++ behind).head? = next.text.head? :=
    List.head?_append_of_ne_nil _ next.text_ne_nil
  cases t with
  | octal first rest => exact fun room c found => apart room c (head ▸ found)
  | _ => exact trivial

end Token

section Escaped

theorem unescape_backslash (rest : Text) :
    unescape ('\\' :: rest) = (escaped rest).1 ++ unescape (escaped rest).2 := by
  rw [unescape, if_pos rfl]

theorem unescape_plain {c : Char} (visible : c ≠ '\\') (rest : Text) :
    unescape (c :: rest) = c :: unescape rest := by
  rw [unescape, if_neg visible]

theorem escaped_letter {c meaning : Char} (known : (c, meaning) ∈ letters) (behind : Text) :
    escaped (c :: behind) = ([meaning], behind) := by
  simp only [letters, List.mem_cons, Prod.mk.injEq, List.not_mem_nil, or_false] at known
  rcases known with h | h | h | h | h | h | h | h <;> obtain ⟨rfl, rfl⟩ := h <;> rfl

/-- Behind any character without an escape of its own an octal number is read, or nothing. -/
theorem escaped_other {c : Char} (own : c ∉ ['b', 't', 'n', 'f', 'r', 'u']) (behind : Text) :
    escaped (c :: behind) =
      if isDigit 8 c then
        let octal := ((c :: behind).take (octalRoom c)).takeWhile (isDigit 8)
        ([scalar (value 8 octal)], (c :: behind).drop octal.length)
      else ([c], behind) := by
  simp only [List.mem_cons, List.not_mem_nil, or_false, not_or] at own
  obtain ⟨b, t, n, f, r, u⟩ := own
  rw [escaped.eq_8 c behind b t n f r u]
  rfl

theorem escaped_dropped {c : Char} (other : c ∉ letters.map (·.1)) (code : c ≠ 'u')
    (digit : isDigit 8 c = false) (behind : Text) : escaped (c :: behind) = ([c], behind) := by
  have own : c ∉ ['b', 't', 'n', 'f', 'r', 'u'] := by
    intro member
    simp only [List.mem_cons, List.not_mem_nil, or_false] at member
    -- All but `u` are letters of letter escapes.
    rcases member with rfl | rfl | rfl | rfl | rfl | rfl
    · exact other (by decide)
    · exact other (by decide)
    · exact other (by decide)
    · exact other (by decide)
    · exact other (by decide)
    · exact code rfl
  rw [escaped_other own, if_neg (by simp [digit])]

theorem octal_digit_range {c : Char} (octal : isDigit 8 c = true) :
    48 ≤ c.toNat ∧ c.toNat ≤ 55 ∧ digit? 8 c = some (c.toNat - 48) := by
  unfold isDigit digit? at octal
  unfold digit?
  by_cases decimal : '0' ≤ c ∧ c ≤ '9'
  · have low : 48 ≤ c.toNat := decimal.1
    have below : c.toNat - '0'.toNat < 8 := by simpa [decimal] using octal
    have high : c.toNat - 48 < 8 := below
    simp only [if_pos decimal, if_pos below]
    exact ⟨low, by omega, rfl⟩
  · have large : 8 ≤ if 'a' ≤ c ∧ c ≤ 'z' then c.toNat - 'a'.toNat + 10
        else if 'A' ≤ c ∧ c ≤ 'Z' then c.toNat - 'A'.toNat + 10 else 8 := by
      split
      · omega
      · split <;> omega
    simp only [if_neg decimal, if_neg (Nat.not_lt.mpr large)] at octal
    cases octal

theorem length_octal_le {first : Char} {rest : Text} (octal : Octal first rest) :
    rest.length + 1 ≤ octalRoom first := by
  obtain ⟨few, digits, small⟩ := octal
  obtain ⟨low, high, leading⟩ := octal_digit_range (digits first List.mem_cons_self)
  unfold octalRoom
  split
  · omega
  · rename_i above
    have large : 52 ≤ first.toNat := Nat.lt_of_not_le above
    -- From `4` on a third digit would lead above `\377`.
    match rest, few, small with
    | [], _, _ => exact Nat.le_succ 1
    | [_], _, _ => exact Nat.le_refl 2
    | [_, _], _, small =>
      simp only [value, List.foldl_cons, List.foldl_nil, leading, Option.getD_some] at small
      omega

theorem takeWhile_octal {first : Char} {rest behind : Text} (octal : Octal first rest)
    (ends : OctalEnds first rest behind) :
    ((first :: rest ++ behind).take (octalRoom first)).takeWhile (isDigit 8) = first :: rest := by
  have room := length_octal_le octal
  -- Either the room is used up, or what stands behind is no digit.
  have stops : (behind.take (octalRoom first - (rest.length + 1))).takeWhile (isDigit 8) = [] := by
    cases behind with
    | nil => simp
    | cons c behind =>
      rcases Nat.lt_or_ge (rest.length + 1) (octalRoom first) with more | full
      · obtain ⟨n, left⟩ := Nat.exists_eq_succ_of_ne_zero (Nat.sub_ne_zero_of_lt more)
        rw [left, List.take_succ_cons, List.takeWhile_cons_of_neg (by simp [ends more c rfl])]
      · rw [Nat.sub_eq_zero_of_le full, List.take_zero, List.takeWhile_nil]
  rw [List.take_append, List.take_of_length_le room, List.takeWhile_append_of_pos octal.digits,
    List.length_cons, stops, List.append_nil]

theorem escaped_octal {first : Char} {rest behind : Text} (octal : Octal first rest)
    (ends : OctalEnds first rest behind) :
    escaped (first :: rest ++ behind) = ([Char.ofNat (value 8 (first :: rest))], behind) := by
  have digit := octal.digits first List.mem_cons_self
  have own : first ∉ ['b', 't', 'n', 'f', 'r', 'u'] := by
    intro member
    simp only [List.mem_cons, List.not_mem_nil, or_false] at member
    rcases member with rfl | rfl | rfl | rfl | rfl | rfl <;> cases digit
  have valid : (value 8 (first :: rest)).isValidChar :=
    .inl (Nat.lt_of_le_of_lt octal.small (by decide))
  have taken := takeWhile_octal octal ends
  rw [List.cons_append] at taken ⊢
  simp only [escaped_other own, if_pos digit, taken, scalar, if_pos valid]
  simp

theorem escaped_unicode {digits : Text} (four : digits.length = 4)
    (hex : ∀ d ∈ digits, isDigit 16 d = true) (more : Nat) (behind : Text) :
    escaped ('u' :: (List.replicate more 'u' ++ digits ++ behind)) =
      ([scalar (value 16 digits)], behind) := by
  have marks : (List.replicate more 'u' ++ digits ++ behind).dropWhile (· = 'u') =
      digits ++ behind := by
    rw [List.append_assoc, List.dropWhile_append_of_pos (by simp)]
    -- No digit is a `u`, so the marks end where the digits begin.
    cases digits with
    | nil => cases four
    | cons d digits =>
      have other : d ≠ 'u' := by
        rintro rfl
        exact absurd (hex 'u' List.mem_cons_self) (by decide)
      rw [List.cons_append, List.dropWhile_cons_of_neg (by simpa using other)]
  have taken : (digits ++ behind).take 4 = digits := by rw [← four, List.take_left]
  have left : (digits ++ behind).drop 4 = behind := by rw [← four, List.drop_left]
  simp only [escaped, marks, taken, left, four, List.all_eq_true.mpr hex, and_self, if_true]

end Escaped

/-- One token is read to its character, whatever stands behind that does not go on with it. -/
theorem unescape_token (t : Token) {behind : Text} (ends : t.Ends behind) :
    unescape (t.text ++ behind) = t.char :: unescape behind := by
  cases t with
  | plain c visible => exact unescape_plain visible behind
  | letter c meaning known =>
    simp only [Token.text, Token.char, List.cons_append, List.nil_append, unescape_backslash,
      escaped_letter known]
  | dropped c other code digit =>
    simp only [Token.text, Token.char, List.cons_append, List.nil_append, unescape_backslash,
      escaped_dropped other code digit]
  | octal first rest octal =>
    have read := escaped_octal octal ends
    rw [List.cons_append] at read
    simp only [Token.text, Token.char, List.cons_append, List.nil_append, unescape_backslash, read]
  | unicode more digits four hex =>
    simp only [Token.text, Token.char, List.cons_append, List.nil_append, unescape_backslash,
      escaped_unicode four hex]

theorem unescape_flatMap (tokens : List Token) (apart : tokens.IsChain Token.Apart) :
    unescape (tokens.flatMap Token.text) = tokens.map Token.char := by
  induction tokens with
  | nil => simp [unescape]
  | cons t rest ih =>
    have ends : t.Ends (rest.flatMap Token.text) := by
      cases rest with
      | nil => exact t.ends_nil
      | cons next rest =>
        rw [List.isChain_cons_cons] at apart
        exact Token.ends_append apart.1 _
    rw [List.flatMap_cons, unescape_token t ends, ih apart.tail, List.map_cons]

theorem unescape_forms {t : Text} {forms : List Token}
    (chosen : List.Forall₂ (fun form c => form.char = c) forms t)
    (apart : forms.IsChain Token.Apart) : unescape (forms.flatMap Token.text) = t := by
  rw [unescape_flatMap forms apart]
  rwa [← List.forall₂_eq_eq_eq, List.forall₂_map_left_iff]

section Codes

def hexDigits (code : Nat) : Text :=
  [code / 0x1000, code / 0x100, code / 0x10, code].map fun n => Nat.digitChar (n % 16)

theorem isDigit_hexDigits (code : Nat) : ∀ d ∈ hexDigits code, isDigit 16 d = true := by
  intro d member
  obtain ⟨n, _, rfl⟩ := List.mem_map.mp member
  rw [isDigit, digit_digitChar _ (Nat.mod_lt n (by decide)), Option.isSome_some]

theorem value_hexDigits {code : Nat} (short : code < 0x10000) : value 16 (hexDigits code) = code := by
  have digit (n : Nat) : (digit? 16 (Nat.digitChar (n % 16))).getD 0 = n % 16 := by
    rw [digit_digitChar _ (Nat.mod_lt n (by decide)), Option.getD_some]
  simp only [value, hexDigits, List.map_cons, List.map_nil, List.foldl_cons, List.foldl_nil, digit]
  omega

def Token.ofCode (code : Nat) : Token := .unicode 0 (hexDigits code) rfl (isDigit_hexDigits code)

theorem Token.char_ofCode {c : Char} (basic : c.toNat < 0x10000) :
    (Token.ofCode c.toNat).char = c := by
  have valid : c.toNat.isValidChar := c.valid
  simp only [ofCode, char, value_hexDigits basic, scalar, if_pos valid, Char.ofNat_toNat]

theorem unescape_codes {t : Text} (basic : ∀ c ∈ t, c.toNat < 0x10000) :
    unescape (t.flatMap fun c => (Token.ofCode c.toNat).text) = t := by
  have chosen : List.Forall₂ (fun form c => form.char = c)
      (t.map fun c => Token.ofCode c.toNat) t := by
    rw [List.forall₂_map_left_iff, List.forall₂_same]
    exact fun c member => Token.char_ofCode (basic c member)
  have apart : (t.map fun c => Token.ofCode c.toNat).IsChain Token.Apart := by
    rw [List.isChain_map]
    exact (List.pairwise_of_forall fun _ _ => trivial).isChain
  have read := unescape_forms chosen apart
  rwa [List.flatMap_map] at read

end Codes

/-- A literal is read token by token, if no octal escape has room for the digit behind it. So a text
comes back from any choice of forms for its characters, and one of the basic plane from the codes of
its characters. -/
theorem unescape_tokens :
    (∀ tokens : List Token, tokens.IsChain Token.Apart →
      unescape (tokens.flatMap Token.text) = tokens.map Token.char) ∧
    ∀ t : Text,
      (∀ forms : List Token, List.Forall₂ (fun form c => form.char = c) forms t →
        forms.IsChain Token.Apart → unescape (forms.flatMap Token.text) = t) ∧
      ((∀ c ∈ t, c.toNat < 0x10000) →
        unescape (t.flatMap fun c => (Token.ofCode c.toNat).text) = t) := by
  refine ⟨unescape_flatMap, fun t => ⟨fun forms chosen apart => ?_, fun basic => ?_⟩⟩
  · exact unescape_forms chosen apart
  · exact unescape_codes basic

/-- An octal escape before an escape, one that is full before a digit, and several `u`. -/
def mixed : List Token :=
  [.octal '7' [] ⟨by decide, List.all_eq_true.mp rfl, by decide⟩, .letter 'n' '\n' (by decide),
   .octal '4' ['0'] ⟨by decide, List.all_eq_true.mp rfl, by decide⟩, .plain '0' (by decide),
   .unicode 2 "0041".toList rfl (List.all_eq_true.mp rfl),
   .dropped 'q' (by decide) (by decide) (by decide)]

theorem unescape_tokens_mixed :
    mixed.IsChain Token.Apart ∧ unescape "\\7\\n\\400\\uuu0041\\q".toList = "\x07\n 0Aq".toList := by
  have apart : mixed.IsChain Token.Apart := by decide
  have read := unescape_tokens.1 mixed apart
  have text : mixed.flatMap Token.text = "\\7\\n\\400\\uuu0041\\q".toList := by decide
  have chars : mixed.map Token.char = "\x07\n 0Aq".toList := by decide
  rw [text, chars] at read
  exact ⟨apart, read⟩

end SmaliReport.Text
