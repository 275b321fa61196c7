import SmaliReport.SourceFile
import SmaliReport.Tree.Basic

/-!
Writing a tree below a directory. Each directory is made anew; a report overwrites an earlier one
of the same name. What is written before a failure stays.
-/

namespace SmaliReport

/-- Makes changes, with a failure that names the path. -/
def changes (activity : String) (path : Path) (program : FileM FileError Unit) :
    FileM Failure Unit :=
  program.adapt fun cause => ⟨activity.toList ++ ' ' :: path.text, cause⟩

/-- Makes one change, with a failure that names the path. -/
def change (activity : String) (path : Path)
    (edit : FileSystem → Except FileError FileSystem) : FileM Failure Unit := do
  set (← FileError.during activity path (edit (← get)) : FileSystem)

namespace Tree

mutual

def write (parent : Path) : Tree → FileM Failure Unit
  | .leaf l => do
    let path := Path.join parent (Path.ofText (l.name ++ ".txt".toList))
    change "Failed to write" path fun fs => fs.write path (Text.toUtf8 l.report)
  | .dir name children => do
    let path := Path.join parent (Path.ofText name)
    change "Failed to create directory" path fun fs => fs.makeDir path
    writeAll path children

def writeAll (parent : Path) : List Tree → FileM Failure Unit
  | [] => pure ()
  | t :: rest => do
    write parent t
    writeAll parent rest

end

end Tree

end SmaliReport
