import SmaliReport.Proofs.Text.Escapes

/-!
Texts written by their UTF-16 code units, with one `\u` escape for each. A character above U+FFFF
has two code units, both of them surrogates. An escape is read without its neighbours, so such a
character is lost, and every other one comes back.
-/

namespace SmaliReport.Text

/-- The UTF-16 code units of a character: its code, or a high and a low surrogate. -/
def codeUnits (c : Char) : List Nat :=
  if c.toNat < 0x10000 then [c.toNat]
  else [0xD800 + (c.toNat - 0x10000) / 0x400, 0xDC00 + (c.toNat - 0x10000) % 0x400]

/-- A code unit that is no character of its own. -/
def Surrogate (code : Nat) : Prop := 0xD800 ≤ code ∧ code < 0xE000

instance (code : Nat) : Decidable (Surrogate code) := inferInstanceAs (Decidable (_ ∧ _))

/-- What is read of a code unit that stands alone. -/
def unitChar (code : Nat) : Char := if Surrogate code then '\uFFFD' else Char.ofNat code

/-- The token is an escape with this code behind its `u`. -/
def Token.States : Token → Nat → Prop
  | unicode _ digits _ _, code => value 16 digits = code
  | _, _ => False

theorem value_four {digits : Text} (four : digits.length = 4)
    (hex : ∀ d ∈ digits, isDigit 16 d = true) : value 16 digits < 0x10000 := by
  have small (d : Char) (member : d ∈ digits) : (digit? 16 d).getD 0 < 16 := by
    obtain ⟨n, read⟩ := Option.isSome_iff_exists.mp (hex d member)
    rw [read]
    exact digit_lt read
  match digits, four with
  | [a, b, c, d], _ =>
    have first := small a (by simp)
    have second := small b (by simp)
    have third := small c (by simp)
    have fourth := small d (by simp)
    simp only [value, List.foldl_cons, List.foldl_nil]
    omega

theorem surrogate_iff {code : Nat} (short : code < 0x10000) :
    Surrogate code ↔ ¬code.isValidChar := by
  unfold Nat.isValidChar Surrogate
  omega

theorem scalar_unit {code : Nat} (short : code < 0x10000) : scalar code = unitChar code := by
  by_cases valid : code.isValidChar
  · have single : ¬Surrogate code := fun surrogate => (surrogate_iff short).mp surrogate valid
    rw [scalar, if_pos valid, unitChar, if_neg single]
  · rw [scalar, if_neg valid, unitChar, if_pos ((surrogate_iff short).mpr valid)]

theorem Token.States.char_eq {t : Token} {code : Nat} (stated : t.States code) :
    t.char = unitChar code := by
  cases t with
  | unicode more digits four hex =>
    cases stated
    exact scalar_unit (value_four four hex)
  | _ => cases stated

theorem Token.States.ends {t : Token} {code : Nat} (stated : t.States code) (behind : Text) :
    t.Ends behind := by
  cases t with
  | unicode => trivial
  | _ => cases stated

theorem unescape_stated {escapes : List Token} {codes : List Nat}
    (stated : List.Forall₂ Token.States escapes codes) :
    unescape (escapes.flatMap Token.text) = codes.map unitChar := by
  induction stated with
  | nil => simp [unescape]
  | cons first _ ih =>
    rw [List.flatMap_cons, unescape_token _ (first.ends _), ih, first.char_eq, List.map_cons]

theorem units_basic {c : Char} (basic : c.toNat < 0x10000) : (codeUnits c).map unitChar = [c] := by
  have valid : c.toNat.isValidChar := c.valid
  have single : ¬Surrogate c.toNat := fun surrogate => (surrogate_iff basic).mp surrogate valid
  rw [codeUnits, if_pos basic, List.map_singleton, unitChar, if_neg single, Char.ofNat_toNat]

theorem units_pair {c : Char} (high : ¬c.toNat < 0x10000) :
    (codeUnits c).map unitChar = ['\uFFFD', '\uFFFD'] := by
  have valid : c.toNat.isValidChar := c.valid
  have first : Surrogate (0xD800 + (c.toNat - 0x10000) / 0x400) := by
    unfold Nat.isValidChar at valid
    unfold Surrogate
    omega
  have second : Surrogate (0xDC00 + (c.toNat - 0x10000) % 0x400) := by
    unfold Surrogate
    omega
  rw [codeUnits, if_neg high, List.map_cons, List.map_singleton, unitChar, if_pos first, unitChar,
    if_pos second]

/-- What comes back of a character that is written by its code units. -/
def reread (c : Char) : Text := if c.toNat < 0x10000 then [c] else ['\uFFFD', '\uFFFD']

theorem map_codeUnits (t : Text) : (t.flatMap codeUnits).map unitChar = t.flatMap reread := by
  rw [List.map_flatMap]
  congr 1
  funext c
  by_cases basic : c.toNat < 0x10000
  · rw [units_basic basic, reread, if_pos basic]
  · rw [units_pair basic, reread, if_neg basic]

theorem reread_eq_iff (t : Text) : t.flatMap reread = t ↔ ∀ c ∈ t, c.toNat < 0x10000 := by
  induction t with
  | nil => simp
  | cons c rest ih =>
    rw [List.flatMap_cons, List.forall_mem_cons]
    by_cases basic : c.toNat < 0x10000
    · rw [reread, if_pos basic, List.singleton_append, List.cons.injEq, ih]
      simp only [basic, true_and]
    · -- The first character read is of the basic plane, and `c` is not.
      have lost : reread c ++ rest.flatMap reread ≠ c :: rest := by
        rw [reread, if_neg basic]
        intro same
        obtain rfl : '\uFFFD' = c := (List.cons.inj same).1
        exact basic (by decide)
      exact iff_of_false lost fun all => basic all.1

/-- Each code unit is read alone, a surrogate as U+FFFD. So of a text written by its code units
every character of the basic plane comes back, each other one as two U+FFFD, and the text comes
back just if it has none of these. -/
theorem unescape_units {escapes : List Token} {codes : List Nat}
    (stated : List.Forall₂ Token.States escapes codes) :
    unescape (escapes.flatMap Token.text) = codes.map unitChar ∧
      ∀ t : Text, codes = t.flatMap codeUnits →
        unescape (escapes.flatMap Token.text) = t.flatMap reread ∧
          (unescape (escapes.flatMap Token.text) = t ↔ ∀ c ∈ t, c.toNat < 0x10000) := by
  have read := unescape_stated stated
  refine ⟨read, fun t written => ?_⟩
  have whole : unescape (escapes.flatMap Token.text) = t.flatMap reread := by
    rw [read, written, map_codeUnits]
  exact ⟨whole, by rw [whole, reread_eq_iff]⟩

/-- Digits of either case, and a `u` written twice. -/
def euro : List Token :=
  [.unicode 0 "20ac".toList rfl (List.all_eq_true.mp rfl),
   .unicode 1 "00E9".toList rfl (List.all_eq_true.mp rfl)]

theorem unescape_units_euro : List.Forall₂ Token.States euro (['€', 'é'].flatMap codeUnits) ∧
    unescape "\\u20ac\\uu00E9".toList = ['€', 'é'] := by
  have stated : List.Forall₂ Token.States euro (['€', 'é'].flatMap codeUnits) :=
    .cons rfl (.cons rfl .nil)
  have read := ((unescape_units stated).2 ['€', 'é'] rfl).2
  have text : euro.flatMap Token.text = "\\u20ac\\uu00E9".toList := by decide
  rw [text] at read
  refine ⟨stated, read.mpr ?_⟩
  rw [List.forall_mem_cons, List.forall_mem_singleton]
  exact ⟨by decide, by decide⟩

def smile : List Token :=
  [.unicode 0 "d83d".toList rfl (List.all_eq_true.mp rfl),
   .unicode 0 "de00".toList rfl (List.all_eq_true.mp rfl)]

/-- A character above U+FFFF does not come back from its code units. -/
theorem unescape_pair_lost : List.Forall₂ Token.States smile (['😀'].flatMap codeUnits) ∧
    smile.flatMap Token.text = "\\ud83d\\ude00".toList ∧
    unescape "\\ud83d\\ude00".toList ≠ ['😀'] := by
  have stated : List.Forall₂ Token.States smile (['😀'].flatMap codeUnits) :=
    .cons rfl (.cons rfl .nil)
  have text : smile.flatMap Token.text = "\\ud83d\\ude00".toList := by decide
  have read := unescape_stated stated
  rw [text] at read
  refine ⟨stated, text, ?_⟩
  rw [read]
  decide

end SmaliReport.Text
