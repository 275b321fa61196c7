import SmaliReport.Text.Digits

/-!
Backslash escapes of string literals: the letter escapes, octal escapes up to `\377`, and `\u`
with any number of `u` before four hexadecimal digits. A backslash before any other character is
dropped, and so is one at the very end.
-/

namespace SmaliReport.Text

/-- The scalar of a code, with U+FFFD for a surrogate. -/
def scalar (code : Nat) : Char := if code.isValidChar then Char.ofNat code else '\uFFFD'

/-- What the text behind a backslash stands for, and what it leaves. After `\u` without four
digits the backslash stands for itself. -/
def escaped : Text → Text × Text
  | [] => ([], [])
  | 'b' :: rest => (['\x08'], rest)
  | 't' :: rest => (['\t'], rest)
  | 'n' :: rest => (['\n'], rest)
  | 'f' :: rest => (['\x0C'], rest)
  | 'r' :: rest => (['\r'], rest)
  | 'u' :: rest =>
    let digits := rest.dropWhile (· = 'u')
    if (digits.take 4).length = 4 ∧ (digits.take 4).all (isDigit 16) then
      ([scalar (value 16 (digits.take 4))], digits.drop 4)
    else (['\\'], 'u' :: rest)
  | c :: rest =>
    if isDigit 8 c then
      let octal := ((c :: rest).take (if c ≤ '3' then 3 else 2)).takeWhile (isDigit 8)
      ([scalar (value 8 octal)], (c :: rest).drop octal.length)
    else ([c], rest)

theorem length_escaped_le (t : Text) : (escaped t).2.length ≤ t.length := by
  fun_cases escaped t with
  | case7 rest digits h =>
    have : digits.length ≤ rest.length := (List.dropWhile_sublist _).length_le
    simp only [List.length_drop, List.length_cons]
    omega
  | _ => simp

def unescape : Text → Text
  | [] => []
  | c :: rest =>
    if c = '\\' then (escaped rest).1 ++ unescape (escaped rest).2 else c :: unescape rest
termination_by t => t.length
decreasing_by
  · have := length_escaped_le rest
    simp only [List.length_cons]
    omega
  · simp

end SmaliReport.Text
