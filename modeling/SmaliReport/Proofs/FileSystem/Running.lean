import SmaliReport.FileSystem.Basic

/-!
Running computations on a file system. One lemma for each way to build a computation says how a run
of it ends, with a value or with an error, and which file system it leaves.
-/

namespace SmaliReport

variable {ε α β : Type}

/-- The program ends without an error, with this value and this file system. -/
def Runs (program : FileM ε α) (fs : FileSystem) (a : α) (later : FileSystem) : Prop :=
  program.run fs = (.ok a, later)

theorem runs_pure_iff (a b : α) (fs later : FileSystem) :
    Runs (ε := ε) (pure a) fs b later ↔ a = b ∧ fs = later := by
  constructor
  · intro ran
    cases ran
    exact ⟨rfl, rfl⟩
  · rintro ⟨rfl, rfl⟩
    rfl

theorem run_bind (program : FileM ε α) (next : α → FileM ε β) (fs : FileSystem) :
    (program >>= next).run fs =
      match program.run fs with
      | (.ok a, mid) => (next a).run mid
      | (.error e, mid) => (.error e, mid) := by
  change (match (program fs).1 with
    | .ok a => (next a : StateM FileSystem (Except ε β))
    | .error e => (pure (.error e) : StateM FileSystem (Except ε β))) (program fs).2 = _
  rw [ExceptT.run]
  obtain ⟨result, mid⟩ := program fs
  cases result <;> rfl

theorem run_get (fs : FileSystem) : (get : FileM ε FileSystem).run fs = (.ok fs, fs) := rfl

theorem run_lift (result : Except ε α) (fs : FileSystem) :
    (liftM result : FileM ε α).run fs = (result, fs) := by
  cases result <;> rfl

theorem runs_bind_iff (program : FileM ε α) (next : α → FileM ε β) (fs later : FileSystem) (b : β) :
    Runs (program >>= next) fs b later ↔
      ∃ a mid, Runs program fs a mid ∧ Runs (next a) mid b later := by
  simp only [Runs, run_bind]
  obtain ⟨result, mid⟩ := program.run fs
  cases result with
  | error e =>
    constructor
    · intro ran
      cases ran
    · rintro ⟨_, _, result, _⟩
      cases result
  | ok a =>
    constructor
    · intro ran
      exact ⟨a, mid, rfl, ran⟩
    · rintro ⟨_, _, same, ran⟩
      cases same
      exact ran

theorem run_adapt {δ : Type} (f : ε → δ) (program : FileM ε α) (fs : FileSystem) :
    (ExceptT.adapt f program : FileM δ α).run fs =
      match program.run fs with
      | (.ok a, mid) => (.ok a, mid)
      | (.error e, mid) => (.error (f e), mid) := by
  change (((program fs).1.mapError f, (program fs).2) : Except δ α × FileSystem) = _
  rw [ExceptT.run]
  obtain ⟨result, mid⟩ := program fs
  cases result <;> rfl

/-- A run stops with the first error, or goes on from what the first part has left. -/
theorem run_bind_cases {program : FileM ε α} {next : α → FileM ε β} {fs later : FileSystem}
    {result : Except ε β} (ran : (program >>= next).run fs = (result, later)) :
    (∃ e, program.run fs = (.error e, later) ∧ result = .error e) ∨
      ∃ a mid, Runs program fs a mid ∧ (next a).run mid = (result, later) := by
  rw [run_bind] at ran
  cases first : program.run fs with
  | mk ended mid =>
    rw [first] at ran
    cases ended with
    | error e =>
      cases ran
      exact .inl ⟨e, rfl, rfl⟩
    | ok a => exact .inr ⟨a, mid, first, ran⟩

end SmaliReport
