import SmaliReport.Config.Yaml.Property
import SmaliReport.Config.Yaml.Scalar

/-!
The tokens of a YAML text, up to its first NUL. A token that a colon makes a key gets the token of a
key in front of it, and so does the block or the pair that begins with it.
-/

namespace SmaliReport.Config.Yaml.Lex

/-! ### Brackets -/

/-- Sequences in brackets may hold mappings of one pair; a comma or the bracket ends them. -/
def endPair : Lex Unit := do
  let c ← get
  if c.pairs.head? = some true then
    set { c with inMapping := false, pairs := false :: c.pairs.tail }
    push .flowMappingEnd

def openBracket (token : Token) : Lex Unit := do
  markKey
  openLevel
  guard ((← get).depth < 255)
  modify fun c => { c with candidates := none :: c.candidates, depth := c.depth + 1 }
  allowKey true
  consume 1
  modify fun c =>
    if token = .flowMappingStart then { c with inMapping := true }
    else { c with pairs := false :: c.pairs }
  let _ ← blanks
  push token

def closeBracket (token : Token) : Lex Unit := do
  dropKey
  modify fun c =>
    if c.depth = 0 then c
    else { c with candidates := c.candidates.tail, depth := c.depth - 1 }
  allowKey false
  if token = .flowSequenceEnd then
    endPair
    modify fun c => { c with pairs := c.pairs.tail }
  consume 1
  let _ ← blanks
  modify fun c => if 0 < c.depth then { c with adjacent := c.index } else c
  push token

def comma : Lex Unit := do
  dropKey
  allowKey true
  endPair
  consume 1
  let _ ← blanks
  push .comma

/-! ### Entries, keys and values -/

def entry : Lex Unit := do
  let c ← get
  guard (c.depth = 0 && c.keyAllowed)
  consume 1
  openBlock c.column none .sequenceStart
  let (tabs, _) ← blanks
  let char ← here
  guard !(tabs && char = '-' && endsWord (← peek 1))
  if isBreak char || isBracket char then openLevel
  dropKey
  allowKey true
  push .entry

/-- Takes spaces, line ends and comments. A tab is no space. -/
def space : Lex Unit := do
  let char ← here
  guard (char = ' ' || isBreak char)
  loop do
    let char ← here
    if char = ' ' then
      advance 1
      return true
    else if isBreak char then
      lineEnd
      if (← get).depth = 0 then allowKey true
      return true
    else if char = '#' then
      comment
      return true
    else return false
  guard ((← here) ≠ '\t')

/-- A key behind a question mark. -/
def explicitKey : Lex Unit := do
  let c ← get
  if c.depth = 0 then
    guard c.keyAllowed
    openBlock c.column none .mappingStart
  else set { c with inMapping := true }
  dropKey
  allowKey (c.depth = 0)
  consume 1
  space
  push .key

/-- The value behind a colon. -/
def value : Lex Unit := do
  let start ← get
  let candidate := start.candidates.headD none
  let isPair := !start.pairs.isEmpty && !start.inMapping
  if isPair then set { start with pairs := true :: start.pairs.tail }
  consume 1
  if (← here) = '\t' then
    let (_, spaces) ← blanks
    let char ← here
    guard (spaces || !isWordChar char)
  match candidate with
  | some k =>
    insert k.number .key
    if isPair then
      guard (k.line = start.line)
      insert k.number .flowMappingStart
    openBlock k.column (some k.number) .mappingStart
    openLevel
    modify fun c => { c with candidates := none :: c.candidates.tail, keyAllowed := false }
  | none =>
    if isPair then push .flowMappingStart
    if start.depth = 0 then
      guard start.keyAllowed
      openBlock start.column none .mappingStart
    openLevel
    allowKey (start.depth = 0)
  push .value

/-! ### Tokens -/

/-- A token that may be a key or belong to one. -/
def keyed (token : Lex Token) : Lex Unit := do
  markKey
  allowKey false
  push (← token)

def quotedScalar (quote : Char) : Lex Unit := do
  keyed do return .scalar false (← quoted quote)
  toToken
  modify fun c => { c with adjacent := c.index }

def blockScalar (literal : Bool) : Lex Unit := do
  markKey
  allowKey true
  push (.scalar false (← block literal))

def mark (token : Token) : Lex Unit := do
  unroll (-1)
  dropKey
  allowKey false
  consume 3
  push token

/-- The next token, if there is one. -/
def token : Lex Bool := do
  toToken
  dropStale
  unroll (← get).column
  let c ← get
  let char ← here
  let next ← peek 1
  let inFlow := 0 < c.depth
  if isEnd char then
    guard !(c.candidates.any (·.any (·.required)))
    unroll (-1)
    return false
  if c.column = 0 && char = '%' then
    unroll (-1)
    dropKey
    allowKey false
    push (← directive)
  else if ← atMark '-' then mark .documentStart
  else if ← atMark '.' then
    mark .documentEnd
    let _ ← blanks
    guard (endsLine (← here))
  else
    guard (c.indent ≤ c.column)
    match char with
    | '[' => openBracket .flowSequenceStart
    | '\x7b' => openBracket .flowMappingStart
    | ']' => closeBracket .flowSequenceEnd
    | '\x7d' => closeBracket .flowMappingEnd
    | ',' => comma
    | '*' => keyed do return .alias (← anchorName)
    | '&' => keyed do return .anchor (← anchorName)
    | '!' => keyed tag
    | '\'' => quotedScalar '\''
    | '"' => quotedScalar '"'
    | _ =>
      if char = '-' && endsWord next then entry
      else if char = '?' && endsWord next then explicitKey
      else if char = ':' && endsWord next then value
      else if char = ':' && inFlow && (isBracket next || c.index = c.adjacent) then
        guard (c.index = c.adjacent || !(next = '[' || next = '\x7b'))
        value
      else if char = '|' && !inFlow then blockScalar true
      else if char = '>' && !inFlow then blockScalar false
      else
        guard !(char ∈ ['%', '@', '\x60'])
        keyed do return .scalar true (← plain)
  return true

end Lex

/-- The tokens of a text, if it has the form of YAML. -/
def tokens? (t : Text) : Option (List Token) :=
  let t := t.takeWhile fun c => !isEnd c
  ((Lex.loop Lex.token).run { rest := t, size := t.length }).map fun (_, c) => c.tokens.toList

end SmaliReport.Config.Yaml
