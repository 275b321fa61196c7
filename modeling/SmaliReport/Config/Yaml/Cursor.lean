import SmaliReport.Text.Basic

/-!
The tokens of a YAML text, and a place in the text with what the text before it means for what
follows: the indentation of the open blocks, which are tokens of their own, the brackets that are
open, and the tokens that may turn out to be keys.
-/

namespace SmaliReport.Config.Yaml

inductive Token where
  | version
  /-- A directive that gives tags with this handle a prefix. -/
  | tagPrefix (handle lead : Text)
  | documentStart | documentEnd
  | sequenceStart | mappingStart | blockEnd
  | flowSequenceStart | flowSequenceEnd | flowMappingStart | flowMappingEnd
  /-- The dash of an entry. -/
  | entry
  | comma
  | key | value
  | anchor (name : Text)
  | alias (name : Text)
  | tag (handle suffix : Text)
  | scalar (isPlain : Bool) (t : Text)
  deriving DecidableEq

/-- A token that is a key if a colon follows it in time. -/
structure Candidate where
  /-- Without a colon the text is no YAML. -/
  required : Bool
  /-- How many tokens stand before it. -/
  number : Nat
  index : Nat
  line : Nat
  column : Nat

/-- An indentation deeper than `outer`. One that is no block only keeps the lines that go on with
a value apart from the block around it. -/
structure Level where
  outer : Int
  isBlock : Bool

structure Cursor where
  rest : Text
  /-- The length of the whole text. -/
  size : Nat
  index : Nat := 0
  line : Nat := 0
  column : Nat := 0
  /-- Only blanks were read on this line so far. -/
  fresh : Bool := true
  tokens : Array Token := #[]
  indent : Int := -1
  levels : List Level := []
  /-- How many brackets are open. -/
  depth : Nat := 0
  keyAllowed : Bool := true
  /-- The candidate at each depth, the innermost first. -/
  candidates : List (Option Candidate) := [none]
  /-- The index at which a colon needs no blank behind it. -/
  adjacent : Nat := 0
  /-- Keys within brackets belong to a mapping that has begun. -/
  inMapping : Bool := false
  /-- For each open sequence in brackets, whether a mapping of one pair is open in it. -/
  pairs : List Bool := []

/-- Reads on from a place, or finds that the text is no YAML. -/
abbrev Lex := StateT Cursor Option

/-! ### Characters -/

/-- The end of the text reads as NUL. -/
def isEnd (c : Char) : Bool := c = '\x00'

def isBreak (c : Char) : Bool := c = '\n' || c = '\r'

def isBlank (c : Char) : Bool := c = ' ' || c = '\t'

def endsLine (c : Char) : Bool := isBreak c || isEnd c

def endsWord (c : Char) : Bool := isBlank c || endsLine c

def isBracket (c : Char) : Bool := c ∈ [',', '[', ']', '\x7b', '\x7d']

def isDigit (c : Char) : Bool := '0' ≤ c && c ≤ '9'

def isWordChar (c : Char) : Bool := c.isAlphanum || c = '_' || c = '-'

namespace Lex

/-- The character `count` places further on. -/
def peek (count : Nat) : Lex Char := do return (← get).rest.getD count '\x00'

def here : Lex Char := peek 0

def atEnd : Lex Bool := do return isEnd (← here)

def advance (count : Nat) : Lex Unit :=
  modify fun c => { c with
    rest := c.rest.drop count, index := c.index + count, column := c.column + count }

/-- Takes characters that are no blanks at the start of a line. -/
def consume (count : Nat) : Lex Unit := do
  advance count
  modify ({ · with fresh := false })

/-- Takes the characters with a property. -/
def consumeWhile (p : Char → Bool) : Lex Text := do
  let run := (← get).rest.takeWhile p
  unless run.isEmpty do consume run.length
  return run

/-- Takes a line end, if there is one. -/
def lineEnd : Lex Unit := modify fun c =>
  let past (count : Nat) : Cursor := { c with
    rest := c.rest.drop count, index := c.index + count, line := c.line + 1, column := 0,
    fresh := true }
  match c.rest with
  | '\r' :: '\n' :: _ => past 2
  | '\r' :: _ => past 1
  | '\n' :: _ => past 1
  | _ => c

/-- Takes a step as long as it says so, and as long as there is something to take. -/
def loop (step : Lex Bool) : Lex Unit := do
  let c ← get
  go (c.size - c.index + 1)
where
  go : Nat → Lex Unit
    | 0 => pure ()
    | fuel + 1 => do if ← step then go fuel

def allowKey (allowed : Bool) : Lex Unit := modify ({ · with keyAllowed := allowed })

def push (token : Token) : Lex Unit := modify fun c => { c with tokens := c.tokens.push token }

def insert (number : Nat) (token : Token) : Lex Unit :=
  modify fun c => { c with tokens := c.tokens.insertIdxIfInBounds number token }

/-! ### Blanks and comments -/

def comment : Lex Unit := do
  let _ ← consumeWhile fun c => !endsLine c

/-- Takes the blanks up to the next word or line end, and a comment behind them. The result says
whether there were tabs, and whether there were spaces. -/
def blanks : Lex (Bool × Bool) := do
  let run := (← get).rest.takeWhile isBlank
  advance run.length
  if (← here) = '#' then
    guard !run.isEmpty
    comment
  return ('\t' ∈ run, ' ' ∈ run)

/-- Goes to the next token. Tabs do not indent what stands in a block. -/
def toToken : Lex Unit := loop do
  let c ← get
  let char ← here
  if char = '\t' && !c.levels.isEmpty && c.fresh && c.column < c.indent then
    let _ ← blanks
    guard (endsLine (← here))
    return true
  else if isBlank char then
    advance 1
    return true
  else if isBreak char then
    lineEnd
    if c.depth = 0 then allowKey true
    return true
  else if char = '#' then
    comment
    return true
  else return false

/-- Three dashes or three points alone at the start of a line. -/
def atMark (mark : Char) : Lex Bool := do
  let c ← get
  return c.column = 0 && c.rest.take 3 = [mark, mark, mark] && endsWord (c.rest.getD 3 '\x00')

def atDocumentMark : Lex Bool := do return (← atMark '-') || (← atMark '.')

/-! ### Indentation -/

/-- The levels that are left at a column, and how many blocks end there. -/
def unrolled (column : Int) : Int → List Level → Int × List Level × Nat
  | indent, [] => (indent, [], 0)
  | indent, level :: levels =>
    if column < indent then
      let (indent, left, count) := unrolled column level.outer levels
      (indent, left, if level.isBlock then count + 1 else count)
    else (indent, level :: levels, 0)

/-- Ends the blocks that are indented deeper than the column. -/
def unroll (column : Int) : Lex Unit := modify fun c =>
  if c.depth = 0 then
    let (indent, levels, count) := unrolled column c.indent c.levels
    { c with indent, levels, tokens := c.tokens ++ Array.replicate count .blockEnd }
  else c

/-- Leaves the levels that are no blocks. -/
def toBlock : Lex Unit := modify fun c =>
  let left := c.levels.dropWhile (!·.isBlock)
  match (c.levels.take (c.levels.length - left.length)).getLast? with
  | some level => { c with indent := level.outer, levels := left }
  | none => c

/-- Begins a block, if the column is deeper than the one around it. The token stands before the
token of that number, or last. -/
def openBlock (column : Nat) (number : Option Nat) (token : Token) : Lex Unit := do
  if (← get).depth = 0 then
    modify fun c =>
      match c.levels with
      | ⟨outer, false⟩ :: levels =>
        if c.indent ≤ column then { c with indent := outer, levels } else c
      | _ => c
    let c ← get
    if c.indent < column then
      set { c with indent := (column : Int), levels := ⟨c.indent, true⟩ :: c.levels }
      match number with
      | some number => insert number token
      | none => push token

/-- Indents what follows by one column, without a block. -/
def openLevel : Lex Unit := modify fun c =>
  match c.levels with
  | ⟨_, true⟩ :: _ =>
    if c.depth = 0 then
      { c with indent := c.indent + 1, levels := ⟨c.indent, false⟩ :: c.levels }
    else c
  | _ => c

/-! ### Keys -/

/-- Outside of brackets a key ends on its line and within 1024 characters. -/
def dropStale : Lex Unit := do
  let c ← get
  if c.depth = 0 then
    let isStale (k : Candidate) : Bool := k.line < c.line || k.index + 1024 < c.index
    guard !(c.candidates.any fun k => k.any fun k => k.required && isStale k)
    set { c with candidates := c.candidates.map (Option.filter (!isStale ·)) }

/-- The next token may be a key. -/
def markKey : Lex Unit := modify fun c =>
  if c.keyAllowed then
    let required := c.depth = 0 && c.indent = c.column && c.levels.head?.any (·.isBlock)
    let candidate : Candidate := ⟨required, c.tokens.size, c.index, c.line, c.column⟩
    { c with candidates := some candidate :: c.candidates.tail }
  else c

def dropKey : Lex Unit := do
  let c ← get
  guard !((c.candidates.headD none).any (·.required))
  set { c with candidates := none :: c.candidates.tail }

end Lex

end SmaliReport.Config.Yaml
