import SmaliReport.CommandLine.Program
import SmaliReport.Proofs.Convert.Conversion

/-!
Runs that are to write nothing. A conversion and a new configuration file ask for the switch before
their first change; a completion script is only kept from the file system by going to standard
output.
-/

namespace SmaliReport.CommandLine

variable {fs : FileSystem} {run : Invocation}

/-- Does the command make a completion script in a directory? -/
def Command.savesScript : Command → Bool
  | .completions _ outDir stdout => outDir.isSome && !stdout
  | _ => false

theorem runConvert_dry (dry : run.dryRun = true) (settings : Settings)
    (source destination : Option Text) (all force : Bool) :
    ((runConvert run settings source destination all force).run fs).2 = fs := by
  cases source with
  | none => rfl
  | some source =>
    simp only [runConvert, run_bind, run_get, run_adapt, dry, Request.run_convert, if_true]
    generalize ({ source := _, destination := _, all := _, force := _ } : Request) = request
    cases request.check fs with
    | error e => rfl
    | ok checked =>
      cases request.tree? fs with
      | error f => rfl
      | ok found => cases found <;> rfl

theorem runInit_dry (dry : run.dryRun = true) (dir : Text) (force : Bool) :
    ((runInit run dir force).run fs).2 = fs := by
  simp only [runInit, run_bind, run_get, dry, if_true]
  split <;> rfl

theorem runCompletions_unsaved (texts : Texts) (shell : Shell) (outDir : Option Text) (stdout : Bool)
    (unsaved : (Command.completions shell outDir stdout).savesScript = false) :
    ((runCompletions texts shell outDir stdout).run fs).2 = fs := by
  cases stdout with
  | true => rfl
  | false =>
    cases outDir with
    | none => rfl
    | some dir => cases unsaved

/-- A run with `--dry-run` leaves the file system as it was, whatever the settings and the
environment are, unless it is to save a completion script. -/
theorem execute_dry (texts : Texts) (env : List (Text × Text)) (args : List Text)
    (fs : FileSystem) (parsed : parse args = .ok run) (dry : run.dryRun = true)
    (unsaved : run.command.savesScript = false) : (execute texts env args fs).2 = fs := by
  have idle : ((CommandLine.run texts env run).run fs).2 = fs := by
    cases command : run.command with
    | convert source destination all force =>
      simp only [CommandLine.run, command, run_bind, run_get]
      exact runConvert_dry dry _ source destination all force
    | init dir force =>
      simp only [CommandLine.run, command]
      exact runInit_dry dry dir force
    | completions shell outDir stdout =>
      rw [command] at unsaved
      simp only [CommandLine.run, command]
      exact runCompletions_unsaved texts shell outDir stdout unsaved
  simp only [execute, parsed]
  generalize (CommandLine.run texts env run).run fs = ended at idle
  obtain ⟨result, later⟩ := ended
  cases result <;> exact idle

def dryUpdate : List Text := ["-f", "apk", "--dry-run", "out"].map String.toList

theorem execute_dry_update :
    ∃ run, parse dryUpdate = .ok run ∧ run.dryRun = true ∧ run.command.savesScript = false ∧
      ∀ texts, (execute texts [] dryUpdate Request.apk).2 = Request.apk := by
  refine ⟨_, rfl, rfl, rfl, fun texts => ?_⟩
  exact execute_dry texts [] dryUpdate Request.apk rfl rfl rfl

def dryScript : List Text :=
  ["completions", "bash", "--out-dir", "x", "--dry-run"].map String.toList

theorem execute_dry_saves :
    ∃ run, parse dryScript = .ok run ∧ run.dryRun = true ∧
      ∀ texts, ∃ fs, (execute texts [] dryScript fs).2 ≠ fs := by
  refine ⟨_, rfl, rfl, fun texts => ⟨{}, fun same => ?_⟩⟩
  have absent : FileSystem.has {} (Path.of "x/kmparse.bash") = false := by decide +kernel
  have saved : (execute texts [] dryScript {}).2.has (Path.of "x/kmparse.bash") = true := rfl
  rw [same, absent] at saved
  cases saved

end SmaliReport.CommandLine
