import SmaliReport.Config.Value
import SmaliReport.Config.Yaml.Cursor

/-!
The nodes of a YAML document. A plain scalar stands for a value of the core schema, an alias for the
node that has its anchor. A node is `bad` if its tag does not fit it, or if an alias stands within
the node it is for.
-/

namespace SmaliReport.Config.Yaml

inductive Node where
  | bad
  | null
  | bool (b : Bool)
  | integer (n : Int)
  /-- A floating-point number as it is written. -/
  | real (t : Text)
  | text (t : Text)
  | list (items : List Node)
  | table (entries : List (Node × Node))

namespace Node

/-! ### Scalars -/

/-- An integer of 64 bits, with at most one sign. -/
def integer? (base : Nat) (t : Text) : Option Int := do
  let n ← match t with
    | '-' :: digits => (Text.number? base digits).map fun n => -(n : Int)
    | '+' :: digits => (Text.number? base digits).map fun n => (n : Int)
    | digits => (Text.number? base digits).map fun n => (n : Int)
  if Int64.minValue.toInt ≤ n ∧ n ≤ Int64.maxValue.toInt then some n else none

/-- Digits with at most one point among or around them, and perhaps an exponent. -/
def decimal? (t : Text) : Option Binary64 :=
  let (negative, t) : Bool × Text :=
    match t with
    | '-' :: rest => (true, rest)
    | '+' :: rest => (false, rest)
    | _ => (false, t)
  let mantissa := t.takeWhile fun c => c ≠ 'e' && c ≠ 'E'
  let power := t.drop mantissa.length
  let whole := mantissa.takeWhile (· ≠ '.')
  let places := mantissa.drop (whole.length + 1)
  let exponent : Option Int :=
    match power.drop 1 with
    | '-' :: digits => (Text.number? 10 digits).map fun n => -(n : Int)
    | '+' :: digits => (Text.number? 10 digits).map fun n => (n : Int)
    | digits =>
      if power.isEmpty then some 0 else (Text.number? 10 digits).map fun n => (n : Int)
  match Text.number? 10 (whole ++ places), exponent with
  | some n, some exponent => some (Binary64.ofDecimal negative n (exponent - places.length))
  | _, _ => none

/-- The spellings of infinity and of what is no number. -/
def isSpecial (t : Text) : Bool :=
  [".inf", ".Inf", ".INF", "+.inf", "+.Inf", "+.INF", "-.inf", "-.Inf", "-.INF", ".nan", ".NaN",
    ".NAN"].any (·.toList = t)

def isReal (t : Text) : Bool := isSpecial t || (decimal? t).isSome

/-- The node that a plain scalar stands for. A leading plus sign is one more than an integer may
have of its own. -/
def ofPlain (t : Text) : Node :=
  let marked : Option Int :=
    match t with
    | '0' :: 'x' :: digits => integer? 16 digits
    | '0' :: 'o' :: digits => integer? 8 digits
    | '+' :: digits => integer? 10 digits
    | _ => none
  match marked, integer? 10 t with
  | some n, _ => .integer n
  | none, some n => .integer n
  | none, none =>
    if t = [] ∨ t = ['~'] ∨ t = "null".toList then .null
    else if t = "true".toList then .bool true
    else if t = "false".toList then .bool false
    else if isReal t then .real t
    else .text t

/-- The prefix of the tags of the core schema. -/
def coreTags : Text := "tag:yaml.org,2002:".toList

/-- The node that a plain scalar with a tag stands for. -/
def ofTagged (lead suffix t : Text) : Node :=
  if lead ≠ coreTags then .text t
  else if suffix = "bool".toList then
    if t = "true".toList then .bool true else if t = "false".toList then .bool false else .bad
  else if suffix = "int".toList then
    match integer? 10 t with
    | some n => .integer n
    | none => .bad
  else if suffix = "float".toList then if isReal t then .real t else .bad
  else if suffix = "null".toList then if t = ['~'] ∨ t = "null".toList then .null else .bad
  else .text t

/-! ### Mappings -/

mutual

def same : Node → Node → Bool
  | .bad, .bad => true
  | .null, .null => true
  | .bool a, .bool b => a == b
  | .integer a, .integer b => a == b
  | .real a, .real b => a == b
  | .text a, .text b => a == b
  | .list as, .list bs => sameAll as bs
  | .table as, .table bs => sameEntries as bs
  | _, _ => false

def sameAll : List Node → List Node → Bool
  | [], [] => true
  | a :: as, b :: bs => same a b && sameAll as bs
  | _, _ => false

def sameEntries : List (Node × Node) → List (Node × Node) → Bool
  | [], [] => true
  | (k, v) :: as, (l, w) :: bs => same k l && same v w && sameEntries as bs
  | _, _ => false

end

/-- The entries of a mapping from its nodes in a row; a bad node is no key and is passed over. -/
def paired : List Node → List (Node × Node)
  | [] => []
  | .bad :: rest => paired rest
  | key :: v :: rest => (key, v) :: paired rest
  | [_] => []

/-- The mapping of nodes in a row, if no key is there twice. -/
def mapping? (nodes : List Node) : Option Node := do
  let entries ← (paired nodes).foldlM (fun (entries : List (Node × Node)) entry => do
    guard !(entries.any fun (key, _) => same key entry.1)
    return entry :: entries) []
  return .table entries.reverse

/-- Adds an entry, in the place of an earlier one of its name. -/
def add (entries : List (Text × Value)) (entry : Text × Value) : List (Text × Value) :=
  entries.filter (·.1 ≠ entry.1) ++ [entry]

mutual

/-- The value of a node. A key is a scalar other than null, and known by its text. -/
def value? : Node → Option Value
  | .bad => some .null
  | .null => some .null
  | .bool b => some (.bool b)
  | .integer n => some (.integer n)
  | .real t => (decimal? t).map .float
  | .text t => some (.text t)
  | .list items => (values? items).map .list
  | .table entries => (entries? entries).map fun entries => .table (entries.foldl add [])

def values? : List Node → Option (List Value)
  | [] => some []
  | item :: rest => do return (← value? item) :: (← values? rest)

def entries? : List (Node × Node) → Option (List (Text × Value))
  | [] => some []
  | (key, node) :: rest => do
    let name ← match key with
      | .text t => some t
      | .bool b => some (if b then "true" else "false").toList
      | .integer n => some (Text.ofInt n)
      | .real t => some t
      | _ => none
    return (name, ← value? node) :: (← entries? rest)

end

end Node

end SmaliReport.Config.Yaml
