import SmaliReport.Config.Yaml.Cursor
import SmaliReport.Text.Digits

/-!
The texts of YAML scalars. Line ends within a plain or quoted scalar fold into a blank, or into one
line feed less than there are of them; a block scalar keeps them or folds them.
-/

namespace SmaliReport.Config.Yaml.Lex

/-- What a run of line ends stands for; `first` tells whether its first one counts as a blank. -/
def folded (first : Bool) (more : Nat) : Text :=
  if first && more = 0 then [' '] else List.replicate more '\n'

/-! ### Plain scalars -/

/-- Does the character, with `next` behind it, belong to a plain scalar? -/
def isPlainChar (inFlow : Bool) (c next : Char) : Bool :=
  if c = ':' then !(endsWord next || inFlow && isBracket next) else !(inFlow && isBracket c)

/-- The start of the text without blanks that belongs to a plain scalar. -/
def plainWord (inFlow : Bool) : Text → Text
  | [] => []
  | c :: rest =>
    if !endsWord c && isPlainChar inFlow c (rest.headD '\x00') then c :: plainWord inFlow rest
    else []

/-- Blanks and line ends between the words of a plain scalar: the blanks, and the line ends. -/
structure Gap where
  blanks : Text := []
  first : Bool := false
  more : Nat := 0

/-- Takes the gap behind a word. Tabs may not indent the next word. -/
def plainGap (indent : Int) : Lex Gap := do
  let c ← get
  go indent (c.size - c.index + 1) {}
where
  go (indent : Int) : Nat → Gap → Lex Gap
    | 0, gap => pure gap
    | fuel + 1, gap => do
      let c ← get
      let char ← here
      if isBlank char then
        if !c.fresh then
          advance 1
          go indent fuel { gap with blanks := gap.blanks ++ [char] }
        else if c.column < indent && char = '\t' then
          let _ ← blanks
          guard (endsLine (← here))
          go indent fuel gap
        else
          advance 1
          go indent fuel gap
      else if isBreak char then
        lineEnd
        if c.fresh then go indent fuel { gap with more := gap.more + 1 }
        else go indent fuel { gap with blanks := [], first := true }
      else return gap

/-- The words of a plain scalar; those on later lines are indented like the first. -/
def plainWords (indent : Int) : Nat → Gap → Lex Text
  | 0, _ => pure []
  | fuel + 1, gap => do
    let c ← get
    let inFlow := 0 < c.depth
    if (← atDocumentMark) || (← here) = '#' then return []
    guard !(inFlow && (← here) = '-' && isBracket (← peek 1))
    let word := plainWord inFlow c.rest
    let joint := if c.fresh then folded gap.first gap.more else gap.blanks
    unless word.isEmpty do consume word.length
    let text := if word.isEmpty then [] else joint ++ word
    let char ← here
    if !(isBlank char || isBreak char) then return text
    let gap ← plainGap indent
    let c ← get
    if c.depth = 0 && c.column < indent then return text
    return text ++ (← plainWords indent fuel gap)

def plain : Lex Text := do
  toBlock
  let c ← get
  let indent := c.indent + 1
  guard (c.depth = 0 || indent ≤ c.column)
  let t ← plainWords indent (c.size - c.index + 1) {}
  if (← get).fresh then allowKey true
  guard !t.isEmpty
  return t

/-! ### Quoted scalars -/

def digits (count : Nat) : Lex Nat := do
  let run := (← get).rest.take count
  guard (run.length = count && run.all (Text.isDigit 16))
  consume count
  return Text.value 16 run

/-- What a backslash and the characters behind it stand for. -/
def escape : Lex Char := do
  let code ← peek 1
  consume 2
  let scalar (count : Nat) : Lex Char := do
    let n ← digits count
    guard n.isValidChar
    return Char.ofNat n
  match code with
  | '0' => return '\x00'
  | 'a' => return '\x07'
  | 'b' => return '\x08'
  | 't' | '\t' => return '\t'
  | 'n' => return '\n'
  | 'v' => return '\x0B'
  | 'f' => return '\x0C'
  | 'r' => return '\r'
  | 'e' => return '\x1B'
  | ' ' => return ' '
  | '"' => return '"'
  | '/' => return '/'
  | '\\' => return '\\'
  | 'N' => return '\u0085'
  | '_' => return '\u00A0'
  | 'L' => return '\u2028'
  | 'P' => return '\u2029'
  | 'x' => scalar 2
  | 'u' => scalar 4
  | 'U' => scalar 8
  | _ => failure

/-- The characters up to a blank, a line end or the quote, and whether an escaped line end was the
last of them. -/
def quotedWord (quote : Char) : Nat → Lex (Text × Bool)
  | 0 => pure ([], false)
  | fuel + 1 => do
    let char ← here
    let next ← peek 1
    if endsWord char then return ([], false)
    else if quote = '\'' && char = '\'' && next = '\'' then
      consume 2
      more '\'' fuel
    else if char = quote then return ([], false)
    else if quote = '"' && char = '\\' && isBreak next then
      consume 1
      lineEnd
      return ([], true)
    else if quote = '"' && char = '\\' then
      let c ← escape
      more c fuel
    else
      consume 1
      more char fuel
where
  more (c : Char) (fuel : Nat) : Lex (Text × Bool) := do
    let (t, escaped) ← quotedWord quote fuel
    return (c :: t, escaped)

/-- Takes the gap behind a word; `onNext` says that the word ended with an escaped line end. -/
def quotedGap : Nat → (onNext : Bool) → Gap → Lex Text
  | 0, _, gap => pure gap.blanks
  | fuel + 1, onNext, gap => do
    let c ← get
    let char ← here
    if isBlank char then
      guard !(onNext && char = '\t' && c.column < c.indent)
      advance 1
      quotedGap fuel onNext (if onNext then gap else { gap with blanks := gap.blanks ++ [char] })
    else if isBreak char then
      lineEnd
      quotedGap fuel true
        (if onNext then { gap with more := gap.more + 1 } else { gap with first := true })
    else return if onNext then folded gap.first gap.more else gap.blanks

def quotedWords (quote : Char) : Nat → Lex Text
  | 0 => failure
  | fuel + 1 => do
    let c ← get
    guard !(← atDocumentMark)
    guard !(← atEnd)
    guard (c.indent ≤ c.column)
    let (word, escaped) ← quotedWord quote (c.size - c.index + 1)
    if (← here) = quote then return word
    let c ← get
    let gap ← quotedGap (c.size - c.index + 1) escaped {}
    return word ++ gap ++ (← quotedWords quote fuel)

/-- A quoted scalar, behind which only a colon or a bracket may stand on its last line. -/
def quoted (quote : Char) : Lex Text := do
  let start ← get
  consume 1
  let t ← quotedWords quote (start.size - start.index + 1)
  consume 1
  let _ ← blanks
  let c ← get
  let char ← here
  guard (endsLine char || 0 < c.depth && char ∈ [',', ']', '\x7d', ':'] ||
    c.depth = 0 && char = ':' && start.line = c.line)
  return t

/-! ### Block scalars -/

/-- What happens to the line ends at the end. -/
inductive Chomping where
  | strip | clip | keep
  deriving DecidableEq

def chomping? : Lex (Option Chomping) := do
  let char ← here
  let mark : Option Chomping :=
    if char = '+' then some .keep else if char = '-' then some .strip else none
  if mark.isSome then consume 1
  return mark

/-- How much deeper the scalar is indented than the block around it. -/
def increment? : Lex (Option Nat) := do
  let char ← here
  if isDigit char then
    guard (char ≠ '0')
    consume 1
    return some (char.toNat - '0'.toNat)
  else return none

/-- Takes empty lines, and the indentation of the next line up to `indent` spaces. -/
def emptyLines (indent : Nat) : Lex Nat := do
  let c ← get
  go indent (c.size - c.index + 1)
where
  go (indent : Nat) : Nat → Lex Nat
    | 0 => pure 0
    | fuel + 1 => do
      let c ← get
      advance ((c.rest.take (indent - c.column)).takeWhile (· = ' ')).length
      if isBreak (← here) then
        lineEnd
        return (← go indent fuel) + 1
      else return 0

/-- Takes empty lines and the indentation of the next line: the number of lines, and the deepest
indentation among all of them. -/
def firstIndent : Lex (Nat × Nat) := do
  let c ← get
  go (c.size - c.index + 1) 0
where
  go : Nat → Nat → Lex (Nat × Nat)
    | 0, deepest => pure (0, deepest)
    | fuel + 1, deepest => do
      advance ((← get).rest.takeWhile (· = ' ')).length
      let deepest := max deepest (← get).column
      if isBreak (← here) then
        lineEnd
        let (count, deepest) ← go fuel deepest
        return (count + 1, deepest)
      else return (0, deepest)

/-- The content of a block scalar, with a line end left over (or not) and the number of empty
lines behind it. -/
def blockLines (literal : Bool) (indent : Nat) : Nat → (started afterBlank : Bool) →
    (empty : Nat) → Lex (Text × Bool × Nat)
  | 0, started, _, empty => pure ([], started, empty)
  | fuel + 1, started, afterBlank, empty => do
    let c ← get
    let finished ← if indent = 0 then atMark '.' else pure false
    if c.column = indent && !(← atEnd) && !finished then
      let blank := isBlank (← here)
      let joint :=
        if !literal && started && !afterBlank && !blank then folded true empty
        else List.replicate (if started then empty + 1 else empty) '\n'
      let line := c.rest.takeWhile fun char => !endsLine char
      advance line.length
      if ← atEnd then return (joint ++ line, false, 0)
      lineEnd
      let empty ← emptyLines indent
      let (rest, result) ← blockLines literal indent fuel true blank empty
      return (joint ++ line ++ rest, result)
    else return ([], started, empty)

def block (literal : Bool) : Lex Text := do
  let start ← get
  consume 1
  toBlock
  let early ← chomping?
  let increment ← increment?
  let late ← if early.isNone && increment.isSome then chomping? else pure none
  let chomping := (early <|> late).getD .clip
  let _ ← blanks
  guard (endsLine (← here))
  let broken := isBreak (← here)
  lineEnd
  guard ((← here) ≠ '\t')
  let outer := (← get).indent
  let (empty, indent) ← match increment with
    | some n => do
      let indent := (max outer 0).toNat + n
      pure (← emptyLines indent, indent)
    | none => do
      let (empty, deepest) ← firstIndent
      pure (empty, max deepest (outer + 1).toNat)
  let c ← get
  if ← atEnd then
    return match chomping with
      | .strip => []
      | .clip => if broken && c.line ≠ start.line then ['\n'] else []
      | .keep =>
        if c.line = start.line then []
        else if empty = 0 then (if broken then ['\n'] else [])
        else List.replicate empty '\n'
  guard !(c.column < indent && outer < c.column)
  let (content, broken, empty) ← blockLines literal indent (c.size - c.index + 1) false false empty
  let c ← get
  let filled := (← atEnd) && max indent 1 ≤ c.column
  let last := (if broken then ['\n'] else []) ++ (if filled then ['\n'] else [])
  return match chomping with
    | .strip => content
    | .clip => content ++ last
    | .keep => content ++ last ++ List.replicate empty '\n'

end SmaliReport.Config.Yaml.Lex
