import SmaliReport.CommandLine.Arguments
import SmaliReport.Config.Settings
import SmaliReport.Convert
import SmaliReport.Tree.Preview

/-!
The program as a function of its arguments, its environment and a file system. A run prints to
standard output and changes the file system, or it ends with an error. The texts that the libraries
behind the command line make are parameters.
-/

namespace SmaliReport.CommandLine

def programName : String := "kmparse"

def Shell.fileName : Shell → String
  | .bash => programName ++ ".bash"
  | .zsh => "_" ++ programName
  | .fish => programName ++ ".fish"
  | .powerShell => "_" ++ programName ++ ".ps1"
  | .elvish => programName ++ ".elv"

/-- Texts made from the declarations of commands and options. -/
structure Texts where
  /-- What completes the program's words in a shell. -/
  script : Shell → Text
  /-- What is printed when arguments ask for no run or are refused. -/
  usage : UsageError → Text

/-- What went wrong, and why if something else did first. -/
structure RunError where
  message : Text
  cause : Option Text := none
  deriving DecidableEq

def RunError.report (e : RunError) : Text :=
  "Error: ".toList ++ e.message ++ ['\n'] ++
    match e.cause with
    | none => []
    | some cause => "\nCaused by:\n    ".toList ++ cause ++ ['\n']

def RunError.ofFailure (f : Failure) : RunError := ⟨f.context, some f.cause.message.toList⟩

def RunError.ofConvert : ConvertError → RunError
  | .failed f => ofFailure f
  | e => ⟨e.message, none⟩

/-- One change to the file system, described as a whole if it fails. -/
def edit (context : String) (change : FileSystem → Except FileError FileSystem) :
    FileM RunError Unit := do
  match change (← get) with
  | .ok fs => set fs
  | .error e => throw ⟨context.toList, some e.message.toList⟩

/-- Lines for standard output, unless the run is quiet. -/
def said (run : Invocation) (lines : List Text) : Text :=
  if run.quiet then [] else lines.flatMap (· ++ ['\n'])

def status (run : Invocation) (colour : Colour) (t : String) : Text :=
  if run.noColor then t.toList else colour.paint t.toList

/-- The canonical path of what is there, else the path as given. -/
def shownPath (fs : FileSystem) (path : Path) : Text :=
  Path.text ((fs.canonical path).toOption.getD path)

def runConvert (run : Invocation) (settings : Settings) (source destination : Option Text)
    (all force : Bool) : FileM RunError Text := do
  let some source := source | throw ⟨"SOURCE is required".toList, none⟩
  let here := Path.ofPlace (← get).here
  let request : Request :=
    { source := Path.ofText source
      destination := ((destination <|> settings.defaultDestination).map Path.ofText).getD here
      all := all || settings.allFiles
      force := force || settings.force }
  match ← ExceptT.adapt RunError.ofConvert (request.convert run.dryRun) with
  | .written _ _ => return said run [status run .green "Finished"]
  | .preview tree =>
    let place := shownPath (← get) request.output
    return said run ((status run .yellow "DRY RUN: Would write to" ++ ' ' :: place) ::
      tree.previewLines !run.noColor)
  | .nothingFound =>
    return said run [status run .yellow "No Kotlin annotated smali files found"]

def runInit (run : Invocation) (dir : Text) (force : Bool) : FileM RunError Text := do
  let path := Path.join (Path.ofText dir) (Path.of "kmparse.toml")
  if (← get).has path && !force then
    throw ⟨"Config file already exists at ".toList ++ path.text ++
      ". Use --force to overwrite.".toList, none⟩
  if run.dryRun then
    return said run ["Would create ".toList ++ path.text ++ ":\n".toList ++ Settings.initialFile]
  edit "Failed to write config file" fun fs => fs.write path (Text.toUtf8 Settings.initialFile)
  return said run ["Created config file at ".toList ++ path.text]

def runCompletions (texts : Texts) (shell : Shell) (outDir : Option Text) (stdout : Bool) :
    FileM RunError Text := do
  if stdout then return texts.script shell
  let some dir := outDir |
    throw ⟨"--out-dir is required unless --stdout is set".toList, none⟩
  ExceptT.adapt (fun e => ⟨"create --out-dir".toList, some e.message.toList⟩)
    (FileSystem.makeDirs (Path.ofText dir))
  edit "generate completion file" fun fs =>
    fs.write (Path.join (Path.ofText dir) (Path.of shell.fileName))
      (Text.toUtf8 (texts.script shell))
  return []

/-- What a run prints to standard output. Settings that cannot be loaded are the defaults. -/
def run (texts : Texts) (env : List (Text × Text)) (run : Invocation) : FileM RunError Text := do
  match run.command with
  | .convert source destination all force =>
    let settings := ((Settings.load (← get) Path.dot env).toOption).getD {}
    runConvert run settings source destination all force
  | .init dir force => runInit run dir force
  | .completions shell outDir stdout => runCompletions texts shell outDir stdout

/-- The paths a run looks below, apart from those of its settings. -/
def reached (settings : Settings) (run : Invocation) : List Path :=
  match run.command with
  | .convert source destination _ _ =>
    let destination := (destination <|> settings.defaultDestination).map Path.ofText
    source.toList.map Path.ofText ++ [Path.join (destination.getD Path.dot) Request.outputName]
  | .init dir _ => [Path.join (Path.ofText dir) (Path.of "kmparse.toml")]
  | .completions shell outDir _ =>
    outDir.toList.map fun dir => Path.join (Path.ofText dir) (Path.of shell.fileName)

/-- The end of the program. -/
structure Exit where
  code : Nat
  stdout : Text := []
  stderr : Text := []

def UsageError.exit (texts : Texts) (e : UsageError) : Exit :=
  if e = .help ∨ e = .version then { code := 0, stdout := texts.usage e }
  else { code := 2, stderr := texts.usage e }

/-- The whole program: how it ends, and the file system it leaves. -/
def execute (texts : Texts) (env : List (Text × Text)) (args : List Text) (fs : FileSystem) :
    Exit × FileSystem :=
  match parse args with
  | .error e => (e.exit texts, fs)
  | .ok invocation =>
    match (run texts env invocation).run fs with
    | (.ok stdout, fs) => ({ code := 0, stdout }, fs)
    | (.error e, fs) => ({ code := 1, stderr := e.report }, fs)

end SmaliReport.CommandLine
