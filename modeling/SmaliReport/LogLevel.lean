import SmaliReport.Text.Digits

/-! How much is logged, by flags and configuration. -/

namespace SmaliReport

inductive LogLevel where
  | error | warn | info | debug | trace
  deriving DecidableEq

namespace LogLevel

def all : List (String × LogLevel) :=
  [("error", .error), ("warn", .warn), ("info", .info), ("debug", .debug), ("trace", .trace)]

def name (level : LogLevel) : String :=
  match level with
  | .error => "error"
  | .warn => "warn"
  | .info => "info"
  | .debug => "debug"
  | .trace => "trace"

/-- A name in any case, or its number from one to five, possibly with a plus sign. -/
def ofText? (t : Text) : Option LogLevel :=
  match Text.number? 10 ((['+'].isPrefixOf? t).getD t) with
  | some n => if n = 0 then none else (all[n - 1]?).map (·.2)
  | none => (all.find? fun (name, _) => Text.lower t = name.toList).map (·.2)

/-- Verbosity wins over quiet, and quiet over the configured level. -/
def choose (verbose : Nat) (quiet : Bool) (configured : Text) : LogLevel :=
  match verbose with
  | 0 => if quiet then .error else (ofText? configured.trim).getD .warn
  | 1 => .debug
  | _ => .trace

end LogLevel

end SmaliReport
