import SmaliReport.Config.Yaml.Node
import SmaliReport.Config.Yaml.Tokens

/-!
YAML documents as nodes, from their tokens. Wherever a node may stand but none does there is a null,
or an empty scalar if there are properties for it.
-/

namespace SmaliReport.Config.Yaml

/-- What is left of the tokens, and what the ones before mean for them. -/
structure Reading where
  tokens : List Token
  /-- The prefixes of tag handles. -/
  tags : List (Text × Text) := []
  /-- The number of the node that last had a name. -/
  anchors : List (Text × Nat) := []
  /-- The nodes that are complete, by number. -/
  nodes : List (Nat × Node) := []

abbrev Read := StateT Reading Option

namespace Read

def next? : Read (Option Token) := do return (← get).tokens.head?

def skip : Read Unit := modify fun r => { r with tokens := r.tokens.drop 1 }

/-- Takes the token if it is next. -/
def take (token : Token) : Read Bool := do
  let found := (← next?) = some token
  if found then skip
  return found

def isNext (tokens : List Token) : Read Bool := do
  return (← next?).any (· ∈ tokens)

/-! ### Properties -/

structure Properties where
  /-- The number of the node, if it has an anchor. -/
  number : Option Nat := none
  /-- The prefix and the rest of the tag. -/
  tag : Option (Text × Text) := none

/-- The prefix for the handle of a tag. Only `!` and no handle at all stand for themselves. -/
def leadOf (handle suffix : Text) : Read Text := do
  let tags := (← get).tags
  if handle = "!!".toList then return (tags.lookup handle).getD Node.coreTags
  else if handle = [] && suffix = ['!'] then return (tags.lookup []).getD []
  else
    match tags.lookup handle with
    | some lead => return lead
    | none =>
      guard (handle.length < 2)
      return handle

def anchor? (p : Properties) : Read (Option Properties) := do
  match ← next? with
  | some (.anchor name) =>
    skip
    let r ← get
    let number := r.anchors.length
    set { r with anchors := (name, number) :: r.anchors }
    return some { p with number := some number }
  | _ => return none

def tag? (p : Properties) : Read (Option Properties) := do
  match ← next? with
  | some (.tag handle suffix) =>
    skip
    return some { p with tag := some (← leadOf handle suffix, suffix) }
  | _ => return none

/-- An anchor and a tag in either order. -/
def properties : Read Properties := do
  if let some p ← anchor? {} then return (← tag? p).getD p
  if let some p ← tag? {} then return (← anchor? p).getD p
  return {}

def scalar (p : Properties) (isPlain : Bool) (t : Text) : Node :=
  match isPlain, p.tag with
  | false, _ => .text t
  | true, some (lead, suffix) => .ofTagged lead suffix t
  | true, none => .ofPlain t

/-- The node with the name, if it is complete. -/
def aliased (name : Text) : Read Node := do
  let r ← get
  match r.anchors.lookup name with
  | none => failure
  | some number => return (r.nodes.lookup number).getD .bad

/-! ### Nodes -/

/-- Where a node stands, which is what it may be: in brackets no block, and only as key or value of
a block mapping a sequence that is not indented. -/
inductive Context where
  | flow | block | keyed
  deriving DecidableEq

/-- The node at a place, or null if one of these tokens is next instead. -/
def nodeUnless (stops : List Token) (node : Read Node) : Read Node := do
  if ← isNext stops then return .null else node

mutual

/-- A node. No more than three steps in a row take no token, which bounds the `fuel` it needs. -/
def node : (fuel : Nat) → Context → Read Node
  | 0, _ => failure
  | fuel + 1, context => do
    if let some (.alias name) ← next? then
      skip
      return ← aliased name
    let p ← properties
    let found ← content fuel context p
    if let some number := p.number then
      modify fun r => { r with nodes := (number, found) :: r.nodes }
    return found

def content : (fuel : Nat) → Context → Properties → Read Node
  | 0, _, _ => failure
  | fuel + 1, context, p => do
    match ← next? with
    | some (.scalar isPlain t) =>
      skip
      return scalar p isPlain t
    | some .flowSequenceStart =>
      skip
      return .list (← flowItems fuel true)
    | some .flowMappingStart =>
      skip
      liftM (Node.mapping? (← flowEntries fuel true))
    | next =>
      if next = some .entry && context = .keyed then return .list (← looseItems fuel)
      else if next = some .sequenceStart && context ≠ .flow then
        skip
        return .list (← blockItems fuel)
      else if next = some .mappingStart && context ≠ .flow then
        skip
        liftM (Node.mapping? (← blockEntries fuel))
      else
        guard (p.number.isSome || p.tag.isSome)
        return scalar p true []

/-- The entries of a block sequence, up to its end. -/
def blockItems : (fuel : Nat) → Read (List Node)
  | 0 => failure
  | fuel + 1 => do
    if ← take .blockEnd then return []
    guard (← take .entry)
    let item ← nodeUnless [.entry, .blockEnd] (node fuel .block)
    return item :: (← blockItems fuel)

/-- The entries of a sequence that is not indented, up to whatever is no entry. -/
def looseItems : (fuel : Nat) → Read (List Node)
  | 0 => failure
  | fuel + 1 => do
    if !(← take .entry) then return []
    let item ← nodeUnless [.entry, .key, .value, .blockEnd] (node fuel .block)
    return item :: (← looseItems fuel)

/-- The keys and values of a block mapping in turn, up to its end. -/
def blockEntries : (fuel : Nat) → Read (List Node)
  | 0 => failure
  | fuel + 1 => do
    if ← take .blockEnd then return []
    let key ←
      if ← take .key then nodeUnless [.key, .value, .blockEnd] (node fuel .keyed)
      else do
        guard (← isNext [.value])
        pure .null
    let value ←
      if ← take .value then nodeUnless [.key, .value, .blockEnd] (node fuel .keyed)
      else pure .null
    return key :: value :: (← blockEntries fuel)

/-- The items of a sequence in brackets, up to its end. -/
def flowItems : (fuel : Nat) → (first : Bool) → Read (List Node)
  | 0, _ => failure
  | fuel + 1, first => do
    if ← take .flowSequenceEnd then return []
    unless first do guard (← take .comma)
    if ← take .flowSequenceEnd then return []
    let item ← if ← take .key then pair fuel else node fuel .flow
    return item :: (← flowItems fuel false)

/-- A mapping of one pair as an item. A stop in place of its key is taken with it. -/
def pair : (fuel : Nat) → Read Node
  | 0 => failure
  | fuel + 1 => do
    let key ←
      if ← isNext [.value, .comma, .flowSequenceEnd] then do
        skip
        pure .null
      else node fuel .flow
    let value ←
      if ← take .value then nodeUnless [.comma, .flowSequenceEnd] (node fuel .flow)
      else pure .null
    liftM (Node.mapping? [key, value])

/-- The keys and values of a mapping in brackets in turn, up to its end. -/
def flowEntries : (fuel : Nat) → (first : Bool) → Read (List Node)
  | 0, _ => failure
  | fuel + 1, first => do
    if ← take .flowMappingEnd then return []
    unless first do guard (← take .comma)
    if ← take .flowMappingEnd then return []
    let (key, mayHaveValue) ←
      if ← take .key then do
        pure (← nodeUnless [.value, .comma, .flowMappingEnd] (node fuel .flow), true)
      else if ← isNext [.value] then pure (Node.null, true)
      else do pure (← node fuel .flow, false)
    let value ←
      if mayHaveValue then do
        if ← take .value then nodeUnless [.comma, .flowMappingEnd] (node fuel .flow)
        else pure .null
      else pure .null
    return key :: value :: (← flowEntries fuel false)

end

/-! ### Documents -/

/-- Takes directives, of which the last one counts. There is one version at most. -/
def directives : (fuel : Nat) → (versioned : Bool) → Read Unit
  | 0, _ => pure ()
  | fuel + 1, versioned => do
    match ← next? with
    | some .version =>
      guard !versioned
      modify ({ · with tags := [] })
      skip
      directives fuel true
    | some (.tagPrefix handle lead) =>
      modify ({ · with tags := [(handle, lead)] })
      skip
      directives fuel versioned
    | _ => pure ()

def skipEnds : Read Unit :=
  modify fun r => { r with tokens := r.tokens.dropWhile (· = .documentEnd) }

/-- The one document of a text, if there is any, and nothing behind it. Only directives need a mark
behind them. -/
def document? : Read (Option Node) := do
  skipEnds
  let start := (← get).tokens
  if start.isEmpty then return none
  let fuel := 3 * start.length + 4
  directives fuel false
  let isBare := (← get).tokens.length = start.length
  let found ←
    if ← take .documentStart then
      match ← next? with
      | none => pure Node.null
      | some .version => pure Node.null
      | some (.tagPrefix _ _) => pure Node.null
      | some _ => nodeUnless [.documentStart, .documentEnd] (node fuel .block)
    else do
      guard isBare
      node fuel .block
  skipEnds
  guard (← get).tokens.isEmpty
  return some found

end Read

/-- The value of a configuration file: of one document, or of none, which is an empty table. -/
def read? (t : Text) : Option Value := do
  let (document, _) ← Read.document?.run { tokens := ← tokens? t }
  match document with
  | none => some (.table [])
  | some node => node.value?

end SmaliReport.Config.Yaml
