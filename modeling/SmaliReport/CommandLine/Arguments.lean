import SmaliReport.Text.Basic

/-!
The arguments of the program. Without command it converts; `init` and `completions` are commands
only as the very first argument. A value is checked when the next option or value is accepted, so
that of two faults not always the first one is reported. Arguments are texts; a path is given as the
UTF-8 of its text.
-/

namespace SmaliReport.CommandLine

inductive Shell where
  | bash | zsh | fish | powerShell | elvish
  deriving DecidableEq

def Shell.all : List (String × Shell) :=
  [("bash", .bash), ("zsh", .zsh), ("fish", .fish), ("power-shell", .powerShell),
   ("elvish", .elvish)]

def Shell.ofText? (t : Text) : Option Shell :=
  (all.find? fun (name, _) => name.toList = t).map (·.2)

inductive Command where
  | convert (source destination : Option Text) (all force : Bool)
  | init (path : Text) (force : Bool)
  | completions (shell : Shell) (outDir : Option Text) (stdout : Bool)
  deriving DecidableEq

structure Invocation where
  command : Command
  noColor : Bool
  quiet : Bool
  dryRun : Bool
  verbose : Nat
  deriving DecidableEq

inductive UsageError where
  | missingRequired | unknownArgument | conflict | invalidValue | tooManyValues
  | invalidSubcommand | help | version
  deriving DecidableEq

inductive Switch where
  | all | force | stdout | noColor | quiet | dryRun | verbose | help | version
  deriving DecidableEq

inductive Named where
  | switch (s : Switch)
  | outDir
  deriving DecidableEq

/-- What a command takes. -/
structure Grammar where
  longs : List (String × Named)
  shorts : List (Char × Switch)
  values : Nat
  /-- May this text be a value? -/
  accepts : Text → Bool
  /-- What a value too many is reported as. -/
  excess : UsageError

namespace Grammar

/-- Options that every command takes. -/
def shared : List (String × Named) :=
  [("no-color", .switch .noColor), ("quiet", .switch .quiet), ("dry-run", .switch .dryRun),
   ("verbose", .switch .verbose), ("help", .switch .help)]

def isPath (t : Text) : Bool := !t.isEmpty

def convert : Grammar where
  longs := shared ++
    [("all", .switch .all), ("force", .switch .force), ("version", .switch .version)]
  shorts := [('v', .verbose), ('h', .help), ('a', .all), ('f', .force), ('V', .version)]
  values := 2
  accepts := isPath
  excess := .conflict

def init : Grammar where
  longs := shared ++ [("force", .switch .force)]
  shorts := [('v', .verbose), ('h', .help)]
  values := 1
  accepts := isPath
  excess := .unknownArgument

def completions : Grammar where
  longs := shared ++ [("out-dir", .outDir), ("stdout", .switch .stdout)]
  shorts := [('v', .verbose), ('h', .help)]
  values := 1
  accepts t := (Shell.ofText? t).isSome
  excess := .unknownArgument

end Grammar

/-- What is given but not checked yet. -/
inductive Pending where
  | value (t : Text)
  | outDir (t : Option Text)

/-- What has been accepted. -/
structure Given where
  switches : List Switch := []
  verbose : Nat := 0
  values : List Text := []
  outDir : Option Text := none
  pending : Option Pending := none
  /-- Behind `--` there are only values. -/
  onlyValues : Bool := false

namespace Given

/-- Checks what is pending. -/
def settle (g : Grammar) (given : Given) : Except UsageError Given :=
  match given.pending with
  | none => .ok given
  | some (.value t) =>
    if g.accepts t then .ok { given with values := given.values ++ [t], pending := none }
    else .error .invalidValue
  | some (.outDir none) => .error .invalidValue
  | some (.outDir (some t)) =>
    if given.outDir.isSome then .error .conflict
    else if t.isEmpty then .error .invalidValue
    else .ok { given with outDir := some t, pending := none }

def switch (g : Grammar) (s : Switch) (given : Given) : Except UsageError Given := do
  let given ← given.settle g
  match s with
  | .help => .error .help
  | .version => .error .version
  | .verbose => .ok { given with verbose := min 255 (given.verbose + 1) }
  | s =>
    if s ∈ given.switches then .error .conflict
    else .ok { given with switches := given.switches ++ [s] }

def long (g : Grammar) (name : Text) (attached : Option Text) (given : Given) :
    Except UsageError Given :=
  match g.longs.find? (fun (l, _) => l.toList = name), attached with
  | none, _ => .error .unknownArgument
  | some (_, .switch s), none => given.switch g s
  | some (_, .switch _), some _ => .error .tooManyValues
  | some (_, .outDir), none => do
    .ok { ← given.settle g with pending := some (.outDir none) }
  | some (_, .outDir), some t => do
    ({ ← given.settle g with pending := some (.outDir (some t)) } : Given).settle g

def shorts (g : Grammar) (names : Text) (given : Given) : Except UsageError Given :=
  names.foldlM (fun given c =>
    match g.shorts.lookup c with
    | some s => given.switch g s
    | none => .error .unknownArgument) given

/-- The values given so far, the one pending included. -/
def count (given : Given) : Nat :=
  given.values.length + match given.pending with
    | some (.value _) => 1
    | _ => 0

def value (g : Grammar) (t : Text) (given : Given) : Except UsageError Given :=
  if g.values ≤ given.count then .error g.excess
  else do .ok { ← given.settle g with pending := some (.value t) }

def argument (g : Grammar) (given : Given) (t : Text) : Except UsageError Given :=
  if given.onlyValues then given.value g t
  else
    match t, given.pending with
    | ['-', '-'], _ => .ok { given with onlyValues := true }
    | '-' :: '-' :: rest, _ =>
      match Text.cut? '=' rest with
      | some (name, attached) => given.long g name (some attached)
      | none => given.long g rest none
    | '-' :: c :: rest, _ => given.shorts g (c :: rest)
    | _, some (.outDir none) => .ok { given with pending := some (.outDir (some t)) }
    | _, _ => given.value g t

/-- All arguments of a command, checked. -/
def ofArguments (g : Grammar) (args : List Text) : Except UsageError Given := do
  (← args.foldlM (argument g) {}).settle g

def has (given : Given) (s : Switch) : Bool := s ∈ given.switches

def invocation (given : Given) (command : Command) : Invocation where
  command
  noColor := given.has .noColor
  quiet := given.has .quiet
  dryRun := given.has .dryRun
  verbose := given.verbose

end Given

/-- `help` takes the name of a command, and nothing behind it. -/
def helpOn (args : List Text) : UsageError :=
  match args with
  | [] => .help
  | [name] =>
    if name ∈ ["init", "completions", "help"].map String.toList then .help
    else .invalidSubcommand
  | _ => .invalidSubcommand

def parseConvert (args : List Text) : Except UsageError Invocation := do
  let given ← Given.ofArguments .convert args
  if given.values.isEmpty then .error .missingRequired
  else .ok (given.invocation (.convert given.values[0]? given.values[1]? (given.has .all)
    (given.has .force)))

def parse (args : List Text) : Except UsageError Invocation :=
  match args with
  | [] => parseConvert []
  | first :: rest =>
    if first = "help".toList then .error (helpOn rest)
    else if first = "init".toList then do
      let given ← Given.ofArguments .init rest
      .ok (given.invocation (.init (given.values.headD ['.']) (given.has .force)))
    else if first = "completions".toList then do
      let given ← Given.ofArguments .completions rest
      match given.values.head?.bind Shell.ofText? with
      | none => .error .missingRequired
      | some shell => .ok (given.invocation (.completions shell given.outDir (given.has .stdout)))
    else parseConvert (first :: rest)

end SmaliReport.CommandLine
