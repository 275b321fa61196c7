import SmaliReport.Text.Digits

/-!
Readers that take a value from the front of a text or refuse it. An alternative starts again
where the first one started.
-/

namespace SmaliReport.Config

abbrev Scan := StateT Text Option

namespace Scan

variable {α : Type}

def any : Scan Char := fun t =>
  match t with
  | [] => none
  | c :: rest => some (c, rest)

def char (p : Char → Bool) : Scan Char := do
  let c ← any
  guard (p c)
  return c

def exactly (part : String) : Scan Unit := fun t =>
  (part.toList.isPrefixOf? t).map fun rest => ((), rest)

def takeWhile (p : Char → Bool) : Scan Text := fun t => some (t.takeWhile p, t.dropWhile p)

def takeWhile1 (p : Char → Bool) : Scan Text := do
  let t ← takeWhile p
  guard !t.isEmpty
  return t

def atEnd : Scan Unit := fun t => if t.isEmpty then some ((), t) else none

/-- Items up to the first that is refused. -/
def many (item : Scan α) : Scan (List α) := fun t => some (go t.length t)
where
  go : Nat → Text → List α × Text
    | 0, t => ([], t)
    | fuel + 1, t =>
      match item t with
      | none => ([], t)
      | some (a, rest) => (a :: (go fuel rest).1, (go fuel rest).2)

/-- Items with `mark` between neighbours, possibly none. -/
def separated (item : Scan α) (mark : Scan Unit) : Scan (List α) := do
  match ← optional item with
  | none => return []
  | some first => return first :: (← many (mark *> item))

/-- Exactly `count` digits of a base. -/
def digits (base count : Nat) : Scan Nat := fun t =>
  let taken := t.take count
  if taken.length = count ∧ taken.all (Text.isDigit base) then
    some (Text.value base taken, t.drop count)
  else none

/-- The whole text. -/
def run? (scan : Scan α) (t : Text) : Option α := ((scan <* atEnd) t).map (·.1)

end Scan

end SmaliReport.Config
