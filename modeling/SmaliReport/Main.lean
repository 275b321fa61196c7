import SmaliReport.CommandLine.Program

/-!
The program on a real file system. What the run may look at is copied into a file system value,
links as what they lead to; the run is computed; and where the value differs afterwards, the real
file system is changed in the same way.
-/

namespace SmaliReport.Main

/-- Contents are copied only of files whose contents a run reads. -/
def isRead (name : String) : Bool :=
  name.endsWith ".smali" || Settings.sources.any fun (source, _) => source = name

/-- What lies at a path, with all below it. A link back to a directory around it is left out. -/
partial def load (around : List String) (path name : String) (always : Bool) :
    IO (Option Node) := do
  let place := (← IO.currentDir) / path
  if ← place.isDir then
    let canonical := toString (← IO.FS.realPath place)
    if canonical ∈ around then return none
    let mut entries := []
    for entry in (← place.readDir).toList.reverse do
      let inner ← load (canonical :: around) (toString entry.path) entry.fileName false
      if let some node := inner then entries := (Path.of entry.fileName, node) :: entries
    return some (.dir entries)
  else if ← place.pathExists then
    if always || isRead name then return some (.file (← IO.FS.readBinFile place).toList)
    else return some (.file [])
  else return none

/-- Adds what lies at a path, and the directories that lead to it as far as they are there. -/
def graft (fs : FileSystem) (path : Path) : IO FileSystem := do
  let names := Path.names (Path.join (Path.ofPlace fs.here) path)
  let mut fs := fs
  for count in List.range names.length do
    let place := names.take (count + 1)
    let shown := String.ofList (Path.text (Path.ofPlace place))
    if (fs.node? place).isNone || count + 1 = names.length then
      if count + 1 < names.length && (← ((← IO.currentDir) / shown).isDir) then
        fs := fs.put place (.dir [])
      else if let some node ←
          load [] shown (String.ofList (Path.text (place.getLastD []))) true then
        fs := fs.put place node
  return fs

/-- Makes the changes that lead from one state of a path to another. -/
partial def apply (path : String) (before after : Option Node) : IO Unit := do
  match before, after with
  | some (.dir old), some (.dir new) =>
    for (name, node) in old do
      if (new.lookup name).isNone then apply (below name) (some node) none
    for (name, node) in new do
      apply (below name) (old.lookup name) (some node)
  | _, some (.dir new) =>
    IO.FS.createDir path
    apply path (some (.dir [])) (some (.dir new))
  | some (.file old), some (.file new) =>
    if old ≠ new then IO.FS.writeBinFile path ⟨new.toArray⟩
  | _, some (.file new) => IO.FS.writeBinFile path ⟨new.toArray⟩
  | some (.dir _), none => IO.FS.removeDirAll path
  | some (.file _), none => IO.FS.removeFile path
  | _, _ => pure ()
where
  below (name : Name) : String := path ++ "/" ++ String.ofList (Path.text name)

/-- The variables of the environment, from the list the system keeps for the process. -/
def environment : IO (List (Text × Text)) := do
  let bytes ← try IO.FS.readBinFile "/proc/self/environ" catch _ => pure .empty
  return ((Text.ofUtf8Lossy bytes.toList).splitOn '\x00').filterMap (Text.cut? '=')

/-! ### Texts

Short texts of their own stand in for those of the libraries, which are longer. -/

section

open CommandLine

def words : List String :=
  ["init", "completions", "help"] ++
    (Grammar.convert.longs ++ Grammar.completions.longs).eraseDups.map fun (name, _) => "--" ++ name

def script (shell : Shell) : Text :=
  let quoted := words.map fun word => ("'" ++ word ++ "'").toList
  let plain := " ".intercalate words
  let spaced := String.ofList (Text.joined " " quoted)
  let listed := String.ofList (Text.joined ", " quoted)
  let line : String :=
    match shell with
    | .bash => s!"complete -o default -W \"{plain}\" {programName}"
    | .zsh => s!"#compdef {programName}\ncompadd -- {spaced}"
    | .fish => s!"complete -c {programName} -a \"{plain}\""
    | .powerShell =>
      s!"Register-ArgumentCompleter -Native -CommandName {programName} " ++
        s!"-ScriptBlock \x7b {listed} \x7d"
    | .elvish =>
      s!"set edit:completion:arg-completer[{programName}] = \x7b|@words| put {spaced} \x7d"
  line.toList ++ ['\n']

def usage : UsageError → Text
  | .version => s!"{programName} 0.1.0\n".toList
  | _ =>
    (Text.joined "\n" <| List.map String.toList
      ["Usage: kmparse [OPTIONS] <SOURCE> [DEST]",
       "       kmparse init [--force] [PATH]",
       "       kmparse completions [--out-dir <DIR>] [--stdout] <SHELL>"]) ++ ['\n']

def texts : Texts := { script, usage }

end

end SmaliReport.Main

open SmaliReport in
def main (args : List String) : IO UInt32 := do
  let env ← Main.environment
  let args := args.map String.toList
  let here := Path.names (Path.of (toString (← IO.currentDir)))
  let mut fs : FileSystem := { here }
  for (name, _) in Settings.sources do
    fs ← Main.graft fs (Path.of name)
  if let .ok invocation := CommandLine.parse args then
    let settings := (Settings.load fs Path.dot env).toOption.getD {}
    for path in CommandLine.reached settings invocation do
      fs ← Main.graft fs path
  let (exit, after) := CommandLine.execute Main.texts env args fs
  Main.apply "" (some (.dir fs.entries)) (some (.dir after.entries))
  IO.print (String.ofList exit.stdout)
  IO.eprint (String.ofList exit.stderr)
  return exit.code.toUInt32
