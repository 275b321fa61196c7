import SmaliReport.Config.Yaml.Cursor
import SmaliReport.Text.Digits

/-! Anchors, aliases and tags of YAML nodes, and the directives before a document. -/

namespace SmaliReport.Config.Yaml.Lex

def isAnchorChar (c : Char) : Bool := !endsWord c && !isBracket c && c ≠ '\uFEFF'

/-- The name behind the mark of an anchor or alias. -/
def anchorName : Lex Text := do
  consume 1
  let name ← consumeWhile isAnchorChar
  guard !name.isEmpty
  return name

/-! ### Tags -/

def isUriChar (c : Char) : Bool :=
  c.isAlphanum || c = '-' || c ∈ "#;/?:@&=+$,_.!~*'()[]%".toList

def isTagChar (c : Char) : Bool := isUriChar c && !isBracket c && c ≠ '!'

/-- One byte written as a percent sign and two digits. -/
def uriByte : Lex Nat := do
  let run := (← get).rest.take 3
  match run with
  | ['%', high, low] =>
    guard ([high, low].all (Text.isDigit 16))
    consume 3
    return Text.value 16 [high, low]
  | _ => failure

/-- The scalar whose code is made of as many bytes as the first one announces. -/
def uriEscape : Lex Char := do
  let first ← uriByte
  let more ←
    if first < 0x80 then pure 0
    else if first < 0xC0 then failure
    else if first < 0xE0 then pure 1
    else if first < 0xF0 then pure 2
    else if first < 0xF8 then pure 3
    else failure
  let code ← (List.range more).foldlM (fun code _ => do
    let byte ← uriByte
    guard (0x80 ≤ byte ∧ byte < 0xC0)
    return code * 0x100 + byte) first
  guard code.isValidChar
  return Char.ofNat code

/-- Characters of a tag, with the escaped ones decoded. -/
def uriText (p : Char → Bool) : Lex Text := do
  let c ← get
  go p (c.size - c.index + 1)
where
  go (p : Char → Bool) : Nat → Lex Text
    | 0 => pure []
    | fuel + 1 => do
      let char ← here
      if !p char then return []
      else if char = '%' then
        let decoded ← uriEscape
        return decoded :: (← go p fuel)
      else
        consume 1
        return char :: (← go p fuel)

/-- An exclamation mark, and perhaps a word between two of them. -/
def tagHandle (directive : Bool) : Lex Text := do
  guard ((← here) = '!')
  consume 1
  let word ← consumeWhile isWordChar
  if (← here) = '!' then
    consume 1
    return '!' :: word ++ ['!']
  else
    guard (!directive || word.isEmpty)
    return '!' :: word

/-- The handle of a tag and what follows it. A tag without handle has the handle `!`; a tag in
angle brackets, or an exclamation mark alone, has none. -/
def tag : Lex Token := do
  let (handle, suffix) ←
    if (← peek 1) = '<' then do
      consume 2
      let suffix ← uriText isUriChar
      guard ((← here) = '>')
      consume 1
      pure ([], suffix)
    else do
      let handle ← tagHandle false
      let suffix ← uriText isTagChar
      if 2 ≤ handle.length && handle.getLast? = some '!' then
        guard !suffix.isEmpty
        pure (handle, suffix)
      else if (handle.drop 1 ++ suffix).isEmpty then pure ([], ['!'])
      else pure (['!'], handle.drop 1 ++ suffix)
  let char ← here
  guard (endsWord char || 0 < (← get).depth && isBracket char)
  return .tag handle suffix

/-! ### Directives -/

def number : Lex Unit := do
  let run ← consumeWhile isDigit
  guard (!run.isEmpty && run.length ≤ 9)

def skipBlanks : Lex Unit := do advance ((← get).rest.takeWhile isBlank).length

/-- The prefix that a directive gives to a handle. -/
def tagLead : Lex Text := do
  let char ← here
  if char = '!' then
    consume 1
    return '!' :: (← uriText isUriChar)
  else
    guard (isTagChar char)
    uriText isUriChar

/-- A directive on a line of its own; one with another name than these two says nothing. -/
def directive : Lex Token := do
  consume 1
  let name ← consumeWhile isWordChar
  guard (!name.isEmpty && endsWord (← here))
  let token ←
    if name = "YAML".toList then do
      skipBlanks
      number
      guard ((← here) = '.')
      consume 1
      number
      pure Token.version
    else if name = "TAG".toList then do
      skipBlanks
      let handle ← tagHandle true
      skipBlanks
      let lead ← tagLead
      guard (endsWord (← here))
      pure (Token.tagPrefix handle lead)
    else do
      comment
      pure (Token.tagPrefix [] [])
  let _ ← blanks
  guard (endsLine (← here))
  lineEnd
  return token

end SmaliReport.Config.Yaml.Lex
