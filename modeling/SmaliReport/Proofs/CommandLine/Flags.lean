import SmaliReport.Proofs.CommandLine.Reading

/-!
The flags that every command takes. Behind a command they change its global settings and nothing
else. In front of it one of them is the first argument, and the name of the command is read as the
source of a conversion.
-/

namespace SmaliReport.CommandLine

inductive Flag where
  | quiet | noColor | dryRun | verbose
  deriving DecidableEq

namespace Flag

def text : Flag → Text
  | .quiet => "--quiet".toList
  | .noColor => "--no-color".toList
  | .dryRun => "--dry-run".toList
  | .verbose => "-v".toList

/-- The switch of a flag; a verbosity is counted instead. -/
def switch? : Flag → Option Switch
  | .quiet => some .quiet
  | .noColor => some .noColor
  | .dryRun => some .dryRun
  | .verbose => none

def switches (flags : List Flag) : List Switch := flags.filterMap switch?

theorem mem_switches_iff {f : Flag} {s : Switch} {flags : List Flag} (own : f.switch? = some s) :
    s ∈ switches flags ↔ f ∈ flags := by
  rw [switches, List.mem_filterMap]
  constructor
  · rintro ⟨other, inside, same⟩
    have unique : other = f := by
      cases f <;> cases own <;> cases other <;> cases same <;> rfl
    exact unique ▸ inside
  · exact fun inside => ⟨f, inside, own⟩

theorem not_mem_switches {s : Switch} (other : ∀ f : Flag, f.switch? ≠ some s)
    (flags : List Flag) : s ∉ switches flags := by
  intro inside
  obtain ⟨f, _, own⟩ := List.mem_filterMap.mp inside
  exact other f own

theorem texts_plain (flags : List Flag) : ['-', '-'] ∉ flags.map text := by
  intro inside
  obtain ⟨f, _, same⟩ := List.mem_map.mp inside
  cases f <;> cases same

end Flag

/-- The same run with some flags more. -/
def Invocation.flagged (run : Invocation) (flags : List Flag) : Invocation :=
  { run with
    noColor := run.noColor || .noColor ∈ flags
    quiet := run.quiet || .quiet ∈ flags
    dryRun := run.dryRun || .dryRun ∈ flags
    verbose := if .verbose ∈ flags then min 255 (run.verbose + 1) else run.verbose }

def Given.flagged (given : Given) (flags : List Flag) : Given :=
  { given with
    switches := given.switches ++ Flag.switches flags
    verbose := if .verbose ∈ flags then min 255 (given.verbose + 1) else given.verbose }

namespace Grammar

/-- A grammar knows the flags, each by one text. -/
structure Shared (g : Grammar) : Prop where
  longs : ∃ own, g.longs = shared ++ own ∧
    ∀ entry ∈ own, ∀ f : Flag, f.switch?.map .switch ≠ some entry.2
  shorts : ∀ entry ∈ g.shorts, ∀ f : Flag, f.switch? ≠ some entry.2
  verbose : g.shorts.lookup 'v' = some .verbose

/-- A command takes nothing that a conversion does not take, but for `--out-dir` and `--stdout`. -/
structure Narrow (g : Grammar) : Prop extends g.Shared where
  values : g.values = 1
  accepts {t : Text} : g.accepts t = true → isPath t = true
  long : ∀ entry ∈ g.longs, convert.longs.find? (fun (l, _) => l.toList = entry.1.toList) =
    if entry.2 = .outDir ∨ entry.2 = .switch .stdout then none else some entry
  short : ∀ entry ∈ g.shorts,
    convert.shorts.lookup entry.1 = some entry.2 ∧ entry.2 ≠ .stdout

theorem shared_convert : convert.Shared where
  longs := ⟨_, rfl, fun entry own f => by revert entry own; cases f <;> decide⟩
  shorts entry own f := by revert entry own; cases f <;> decide
  verbose := rfl

/-- The only argument that asks for the switch of a flag is the flag. -/
theorem Shared.flag {g : Grammar} (known : g.Shared) {f : Flag} {a : Text} {s : Switch}
    (own : f.switch? = some s) (read : g.Reads a s) : a = f.text := by
  have table : ∀ entry ∈ shared, f.switch?.map .switch = some entry.2 →
      '-' :: '-' :: entry.1.toList = f.text := by
    cases f <;> decide
  have wanted : f.switch?.map .switch = some (Named.switch s) := by rw [own]; rfl
  cases read with
  | short listed => exact absurd own (known.shorts _ listed f)
  | long listed spelled =>
    obtain ⟨rest, shape, apart⟩ := known.longs
    rw [shape] at listed
    rcases List.mem_append.mp listed with inside | outside
    · exact spelled.trans (table _ inside wanted)
    · exact absurd wanted (apart _ outside f)

theorem narrow_init : init.Narrow where
  longs := ⟨_, rfl, fun entry own f => by revert entry own; cases f <;> decide⟩
  shorts entry own f := by revert entry own; cases f <;> decide
  verbose := rfl
  values := rfl
  accepts path := path
  long := by decide
  short := by decide

theorem narrow_completions : completions.Narrow where
  longs := ⟨_, rfl, fun entry own f => by revert entry own; cases f <;> decide⟩
  shorts entry own f := by revert entry own; cases f <;> decide
  verbose := rfl
  values := rfl
  accepts {t} named := by
    cases t with
    | nil => cases named
    | cons c rest => rfl
  long := by decide
  short := by decide

end Grammar

namespace Given

variable {g : Grammar} {given later : Given} {a : Text}

/-! Flags behind other arguments. -/

/-- None of the flags is switched on yet. -/
def Fresh (given : Given) (flags : List Flag) : Prop :=
  ∀ f ∈ flags, ∀ s, f.switch? = some s → s ∉ given.switches

theorem switch_flag {f : Flag} {s : Switch} (own : f.switch? = some s)
    (settled : given.settle g = .ok later) (fresh : s ∉ given.switches) :
    given.switch g s = .ok (later.flagged [f]) := by
  rw [← settle_switches settled] at fresh
  cases f with
  | verbose => cases own
  | _ =>
    cases own
    exact switch_fresh nofun nofun nofun settled fresh

theorem long_flag (known : g.Shared) {f : Flag} {s : Switch} (name : String)
    (listed : Grammar.shared.find? (fun (l, _) => l.toList = name.toList) = some (name, .switch s))
    (own : f.switch? = some s)
    (settled : given.settle g = .ok later) (fresh : s ∉ given.switches) :
    given.long g name.toList none = .ok (later.flagged [f]) := by
  obtain ⟨rest, shape, _⟩ := known.longs
  have found : g.longs.find? (fun (l, _) => l.toList = name.toList) = some (name, .switch s) := by
    rw [shape, List.find?_append, listed, Option.some_or]
  unfold long
  rw [found]
  exact switch_flag own settled fresh

/-- A flag settles what is pending and sets its switch. -/
theorem argument_flag (known : g.Shared) {f : Flag} (ordinary : given.onlyValues = false)
    (settled : given.settle g = .ok later) (fresh : ∀ s, f.switch? = some s → s ∉ given.switches) :
    argument g given f.text = .ok (later.flagged [f]) := by
  unfold argument
  rw [ordinary]
  cases f with
  | quiet => exact long_flag known "quiet" rfl rfl settled (fresh _ rfl)
  | noColor => exact long_flag known "no-color" rfl rfl settled (fresh _ rfl)
  | dryRun => exact long_flag known "dry-run" rfl rfl settled (fresh _ rfl)
  | verbose =>
    have raised : given.switch g .verbose = .ok (later.flagged [.verbose]) := by
      rw [switch, settled]
      simp [flagged, Flag.switches, Flag.switch?, bind, Except.bind]
    change given.shorts g ['v'] = _
    rw [shorts, List.foldlM_cons, known.verbose]
    simp only [raised, List.foldlM_nil]
    rfl

theorem flagged_nil (given : Given) : given.flagged [] = given := by
  simp [flagged, Flag.switches]

theorem flagged_cons (given : Given) {f : Flag} {flags : List Flag} (apart : f ∉ flags) :
    (given.flagged [f]).flagged flags = given.flagged (f :: flags) := by
  have joined : Flag.switches [f] ++ Flag.switches flags = Flag.switches (f :: flags) :=
    (List.filterMap_append (f := Flag.switch?) (l := [f])).symm
  by_cases counted : f = .verbose
  · subst counted
    simp [flagged, apart, ← joined]
  · simp [flagged, Ne.symm counted, ← joined]

theorem Fresh.rest {f : Flag} {rest : List Flag} (fresh : given.Fresh (f :: rest))
    (apart : f ∉ rest) : (given.flagged [f]).Fresh rest := by
  intro other inside s own set
  rcases List.mem_append.mp set with before | new
  · exact fresh other (List.mem_cons_of_mem f inside) s own before
  · have same : other = f := List.mem_singleton.mp ((Flag.mem_switches_iff own).mp new)
    exact apart (same ▸ inside)

theorem run_flags (known : g.Shared) {flags : List Flag} (distinct : flags.Nodup)
    (ordinary : given.onlyValues = false) (settled : given.pending = none)
    (fresh : given.Fresh flags) :
    (flags.map Flag.text).foldlM (argument g) given = .ok (given.flagged flags) := by
  induction flags generalizing given with
  | nil =>
    rw [flagged_nil]
    rfl
  | cons f rest ih =>
    obtain ⟨apart, distinct⟩ := List.nodup_cons.mp distinct
    have first := argument_flag known ordinary (settle_settled settled) (fresh f List.mem_cons_self)
    rw [List.map_cons, List.foldlM_cons, first, ← flagged_cons given apart]
    exact ih distinct ordinary settled (fresh.rest apart)

/-- Flags that are not among the arguments of a command can follow them. -/
theorem ofArguments_flags (known : g.Shared) {args : List Text} {flags : List Flag}
    (plain : ['-', '-'] ∉ args) (distinct : flags.Nodup) (absent : ∀ f ∈ flags, f.text ∉ args)
    (ok : ofArguments g args = .ok given) :
    ofArguments g (args ++ flags.map Flag.text) = .ok (given.flagged flags) := by
  obtain ⟨last, run, settled⟩ := bind_ok_iff.mp ok
  have last_ordinary := run_onlyValues plain run
  have ordinary : given.onlyValues = false := (settle_onlyValues settled).trans last_ordinary
  have empty : given.pending = none := settle_pending settled
  have fresh : given.Fresh flags := by
    intro f inside s own set
    obtain ⟨a, here, read⟩ := run_switches plain run s (settle_switches settled ▸ set)
    exact absent f inside (known.flag own read ▸ here)
  rw [ofArguments, List.foldlM_append, run]
  -- What is pending at the end may be settled first, so that flags meet a settled state only.
  change ((flags.map Flag.text).foldlM (argument g) last >>= Given.settle g) = _
  rw [run_settle last_ordinary (Flag.texts_plain flags) settled,
    run_flags known distinct ordinary empty fresh]
  exact settle_settled empty

/-! A command behind a flag. -/

/-- Something has been given that a conversion does not take. -/
def beyond (given : Given) : Bool :=
  given.outDir.isSome || given.has .stdout || match given.pending with
    | some (.outDir _) => true
    | _ => false

/-- What is given to a conversion if some flags and a name stand before the same arguments. -/
def after (given : Given) (flags : List Flag) (name : Text) : Given :=
  { given.flagged flags with
    switches := Flag.switches flags ++ given.switches
    values := name :: given.values }

theorem Effect.beyond (effect : Effect g a given later) (here : given.beyond = true) :
    later.beyond = true := by
  cases effect with
  | settle ok =>
    rcases settle_cases ok with ⟨_, rfl⟩ | ⟨t, waiting, _, rfl⟩ | ⟨t, _, rfl⟩
    · exact here
    · simpa [Given.beyond, has, waiting] using here
    · simp [Given.beyond]
  | raise => exact here
  | add _ =>
    simp only [Given.beyond, has, Bool.or_eq_true, decide_eq_true_eq, List.mem_append] at here ⊢
    tauto
  | word settled => simpa [Given.beyond, has, settled] using here
  | outDir _ _ => simp [Given.beyond]
  | attach _ => simp [Given.beyond]

/-- What a conversion makes of it: it refuses an option that it does not have. -/
def converted (given : Given) (flags : List Flag) (name : Text) : Except UsageError Given :=
  if given.beyond then .error .unknownArgument else .ok (given.after flags name)

section After

variable (flags : List Flag) (name : Text)

theorem settle_after (narrow : g.Narrow) (within : given.beyond = false)
    (ok : given.settle g = .ok later) :
    later.beyond = false ∧
      (given.after flags name).settle .convert = .ok (later.after flags name) := by
  rcases settle_cases ok with ⟨empty, rfl⟩ | ⟨t, waiting, accepted, rfl⟩ | ⟨t, waiting, rfl⟩
  · exact ⟨within, settle_settled empty⟩
  · refine ⟨by simpa [beyond, has, waiting] using within, ?_⟩
    have same : (given.after flags name).pending = some (.value t) := waiting
    rw [settle, same]
    exact if_pos (narrow.accepts accepted)
  · simp [beyond, waiting] at within

theorem switch_after (narrow : g.Narrow) {s : Switch} (within : given.beyond = false)
    (shared : s ≠ .stdout) (aside : s ∉ Flag.switches flags) (ok : given.switch g s = .ok later) :
    later.beyond = false ∧
      (given.after flags name).switch .convert s = .ok (later.after flags name) := by
  obtain ⟨settled, here, choice⟩ := switch_cases ok
  obtain ⟨within, same⟩ := settle_after flags name narrow within here
  rcases choice with ⟨rfl, rfl⟩ | ⟨counted, help, version, fresh, rfl⟩
  · refine ⟨within, ?_⟩
    -- The limit on a verbosity is the same whether the flag is counted before or behind.
    rw [switch, same]
    simp only [after, flagged, bind, Except.bind]
    split <;> rfl
  · refine ⟨?_, ?_⟩
    · simpa [beyond, has, shared.symm] using within
    · have apart : s ∉ (settled.after flags name).switches := by
        simp only [after, List.mem_append, not_or]
        exact ⟨aside, fresh⟩
      rw [switch_fresh counted help version same apart]
      simp only [after, flagged, List.append_assoc]

theorem shorts_after (narrow : g.Narrow) {names : Text} (within : given.beyond = false)
    (ok : given.shorts g names = .ok later) :
    later.beyond = false ∧
      (given.after flags name).shorts .convert names = .ok (later.after flags name) := by
  induction names generalizing given with
  | nil =>
    cases ok
    exact ⟨within, rfl⟩
  | cons c rest ih =>
    rw [shorts, List.foldlM_cons] at ok
    obtain ⟨next, here, ok⟩ := bind_ok_iff.mp ok
    split at here
    · rename_i s found
      have listed := Grammar.mem_shorts found
      obtain ⟨same, shared⟩ := narrow.short _ listed
      have aside := Flag.not_mem_switches (narrow.shorts _ listed) flags
      obtain ⟨within, first⟩ := switch_after flags name narrow within shared aside here
      rw [shorts_cons same, first]
      exact ih within ok
    · cases here

theorem long_after (narrow : g.Narrow) {t : Text} {attached : Option Text}
    (within : given.beyond = false)
    (aside : ∀ s, attached = none → g.Reads ('-' :: '-' :: t) s → s ∉ Flag.switches flags)
    (ok : given.long g t attached = .ok later) :
    (given.after flags name).long .convert t attached = later.converted flags name := by
  unfold long at ok
  split at ok
  · cases ok
  · rename_i l s found
    obtain ⟨listed, rfl⟩ := Grammar.mem_longs found
    unfold long
    rw [narrow.long _ listed]
    by_cases own : s = .stdout
    · subst own
      have set : later.beyond = true := by
        obtain ⟨settled, _, ⟨same, _⟩ | ⟨_, _, _, _, rfl⟩⟩ := switch_cases ok
        · cases same
        · simp [beyond, has]
      rw [converted, set]
      rfl
    · obtain ⟨within, step⟩ := switch_after flags name narrow within own
        (aside s rfl (.long listed rfl)) ok
      rw [converted, within, if_neg (by simpa using own)]
      exact step
  · cases ok
  · rename_i l found
    obtain ⟨settled, _, ok⟩ := bind_ok_iff.mp ok
    cases ok
    have own : Given.beyond { settled with pending := some (.outDir none) } = true := by
      simp [beyond]
    obtain ⟨listed, rfl⟩ := Grammar.mem_longs found
    unfold long
    rw [narrow.long _ listed, converted, if_pos own]
    rfl
  · rename_i l found
    obtain ⟨settled, _, ok⟩ := bind_ok_iff.mp ok
    have own : later.beyond = true :=
      Effect.beyond (a := t) (.settle ok) (by simp [beyond])
    obtain ⟨listed, rfl⟩ := Grammar.mem_longs found
    unfold long
    rw [narrow.long _ listed, converted, if_pos own]
    rfl

theorem value_after (narrow : g.Narrow) {t : Text} (within : given.beyond = false)
    (ok : given.value g t = .ok later) :
    later.beyond = false ∧
      (given.after flags name).value .convert t = .ok (later.after flags name) := by
  unfold value at ok
  split at ok
  · cases ok
  · rename_i room
    obtain ⟨settled, here, ok⟩ := bind_ok_iff.mp ok
    cases ok
    obtain ⟨within, same⟩ := settle_after flags name narrow within here
    refine ⟨?_, ?_⟩
    · have empty := settle_pending here
      simpa [beyond, has, empty] using within
    · have counted : (given.after flags name).count = given.count + 1 := by
        simp only [count, after, flagged, List.length_cons]
        omega
      have still : ¬Grammar.convert.values ≤ (given.after flags name).count := by
        rw [narrow.values] at room
        rw [counted]
        change ¬2 ≤ given.count + 1
        omega
      rw [value, if_neg still, same]
      rfl

theorem argument_after (narrow : g.Narrow) (ordinary : given.onlyValues = false)
    (plain : a ≠ ['-', '-']) (aside : ∀ f ∈ flags, f.text ≠ a) (within : given.beyond = false)
    (ok : argument g given a = .ok later) :
    argument .convert (given.after flags name) a = later.converted flags name := by
  have still : (given.after flags name).onlyValues = false := ordinary
  have free : given.pending ≠ some (.outDir none) := by
    intro waiting
    simp [beyond, waiting] at within
  cases form a with
  | marker => exact absurd rfl plain
  | long nonempty =>
    obtain ⟨t, attached, spelled, read⟩ := argument_long nonempty
    rw [read ordinary] at ok
    rw [read still]
    refine long_after flags name narrow within (fun s bare asked inside => ?_) ok
    obtain ⟨f, listed, own⟩ := List.mem_filterMap.mp inside
    exact aside f listed (spelled bare ▸ (narrow.flag own asked).symm)
  | shorts other =>
    rw [argument_shorts other ordinary] at ok
    obtain ⟨within, same⟩ := shorts_after flags name narrow within ok
    rw [argument_shorts other still, same, converted, within]
    rfl
  | word word =>
    rw [argument_word word free] at ok
    obtain ⟨within, same⟩ := value_after flags name narrow within ok
    have free' : (given.after flags name).pending ≠ some (.outDir none) := free
    rw [argument_word word free', same, converted, within]
    rfl

theorem run_after (narrow : g.Narrow) {args : List Text} (ordinary : given.onlyValues = false)
    (plain : ['-', '-'] ∉ args) (absent : ∀ f ∈ flags, f.text ∉ args)
    (within : given.beyond = false) (ok : args.foldlM (argument g) given = .ok later) :
    args.foldlM (argument .convert) (given.after flags name) = later.converted flags name := by
  induction args generalizing given with
  | nil =>
    cases ok
    rw [converted, within]
    rfl
  | cons a rest ih =>
    rw [List.foldlM_cons] at ok
    obtain ⟨next, here, ok⟩ := bind_ok_iff.mp ok
    have single : a ≠ ['-', '-'] := fun same => plain (same ▸ List.mem_cons_self)
    have others : ['-', '-'] ∉ rest := fun inside => plain (List.mem_cons_of_mem a inside)
    have first := argument_after flags name narrow ordinary single
      (fun f listed same => absent f listed (same ▸ List.mem_cons_self)) within here
    have still := argument_keeps (P := fun given => given.onlyValues = false) single
      (fun _ _ effect before => effect.onlyValues_eq.trans before) ordinary here
    rw [List.foldlM_cons, first, converted]
    cases own : next.beyond with
    | true =>
      -- The conversion has stopped here, and the command keeps the option up to the end.
      have kept := run_keeps (P := fun given => given.beyond = true) others
        (fun _ _ _ _ effect => effect.beyond) own ok
      rw [converted, kept]
      rfl
    | false =>
      exact ih still others (fun f listed inside => absent f listed (List.mem_cons_of_mem a inside))
        own ok

/-- Behind flags the name of a command is a value. -/
theorem argument_name (word : ∀ c rest, name ≠ '-' :: c :: rest) (some_name : name ≠ []) :
    ∃ waiting, argument .convert (flagged {} flags) name = .ok waiting ∧
      waiting.onlyValues = false ∧ waiting.settle .convert = .ok (after {} flags name) := by
  refine ⟨{ flagged {} flags with pending := some (.value name) }, ?_, rfl, ?_⟩
  · have free : (flagged {} flags).pending ≠ some (.outDir none) := by
      change none ≠ _
      nofun
    rw [argument_word word free]
    rfl
  · have path : Grammar.convert.accepts name = true := by
      cases name with
      | nil => exact absurd rfl some_name
      | cons c rest => rfl
    have stated : after {} flags name =
        { flagged {} flags with values := [name], pending := none } := by
      simp [after, flagged]
    rw [stated]
    exact if_pos path

/-- The name of a command behind flags is a source, and what a conversion does not take is
refused. -/
theorem ofArguments_after (narrow : g.Narrow) {args : List Text} (plain : ['-', '-'] ∉ args)
    (distinct : flags.Nodup) (absent : ∀ f ∈ flags, f.text ∉ args)
    (word : ∀ c rest, name ≠ '-' :: c :: rest) (some_name : name ≠ [])
    (ok : ofArguments g args = .ok given) :
    ofArguments .convert (flags.map Flag.text ++ name :: args) = given.converted flags name := by
  obtain ⟨last, run, settled⟩ := bind_ok_iff.mp ok
  obtain ⟨waiting, named, ordinary, ready⟩ := argument_name flags name word some_name
  have front : (flags.map Flag.text).foldlM (argument .convert) {} = .ok (flagged {} flags) :=
    run_flags Grammar.shared_convert distinct rfl rfl fun _ _ _ _ => List.not_mem_nil
  have rest : args.foldlM (argument .convert) (after {} flags name) = last.converted flags name :=
    run_after flags name narrow rfl plain absent rfl run
  rw [ofArguments, List.foldlM_append, front]
  change ((name :: args).foldlM (argument .convert) (flagged {} flags) >>= settle .convert) = _
  rw [List.foldlM_cons, named]
  change (args.foldlM (argument .convert) waiting >>= settle .convert) = _
  rw [run_settle ordinary plain ready, rest]
  cases own : last.beyond with
  | true =>
    have kept := Effect.beyond (a := name) (.settle settled) own
    rw [converted, converted, own, kept]
    rfl
  | false =>
    obtain ⟨within, same⟩ := settle_after flags name narrow own settled
    rw [converted, converted, own, within]
    exact same

/-- A command without the options that a conversion lacks is given none of them. -/
theorem ofArguments_within (narrow : g.Narrow) {args : List Text} (plain : ['-', '-'] ∉ args)
    (switch : ∀ a, ¬g.Reads a .stdout) (option : ∀ name, (name, .outDir) ∉ g.longs)
    (ok : ofArguments g args = .ok given) : given.beyond = false := by
  obtain ⟨last, run, settled⟩ := bind_ok_iff.mp ok
  suffices within : last.beyond = false from (settle_after [] [] narrow within settled).1
  refine run_keeps (P := fun given => given.beyond = false) plain
    (fun a _ given later effect within => ?_) rfl run
  cases effect with
  | settle ok => exact (settle_after [] [] narrow within ok).1
  | raise => exact within
  | @add s read =>
    have other : s ≠ .stdout := fun same => switch a (same ▸ read)
    simpa [beyond, has, other.symm] using within
  | word settled => simpa [beyond, has, settled] using within
  | outDir listed _ => exact absurd listed (option _)
  | attach waiting => simp [beyond, waiting] at within

end After

/-! The runs of what is given. -/

theorem has_flagged {f : Flag} {s : Switch} (own : f.switch? = some s) (flags : List Flag) :
    (given.flagged flags).has s = (given.has s || decide (f ∈ flags)) := by
  simp [has, flagged, Flag.mem_switches_iff own]

theorem has_flagged_own {s : Switch} (own : s ∈ [Switch.all, .force, .stdout])
    (flags : List Flag) : (given.flagged flags).has s = given.has s := by
  have other : ∀ f : Flag, f.switch? ≠ some s := by
    intro f
    revert s
    cases f <;> decide
  simp [has, flagged, Flag.not_mem_switches other]

theorem has_after (s : Switch) (flags : List Flag) (name : Text) :
    (given.after flags name).has s = (given.flagged flags).has s := by
  simp only [has, after, flagged, List.mem_append, or_comm]

theorem invocation_flagged (flags : List Flag) (command : Command) :
    (given.flagged flags).invocation command = (given.invocation command).flagged flags := by
  simp only [invocation, Invocation.flagged, has_flagged (f := .quiet) rfl,
    has_flagged (f := .noColor) rfl, has_flagged (f := .dryRun) rfl]
  rfl

theorem invocation_after (flags : List Flag) (name : Text) (command : Command) :
    (given.after flags name).invocation command =
      (given.invocation command).flagged flags := by
  rw [← invocation_flagged]
  simp only [invocation, has_after]
  rfl

end Given

/-- How the arguments of a command read when its name is taken for a source. -/
inductive Command.AsSource : Command → Except UsageError Command → Prop where
  | init (destination : Option Text) (force : Bool) :
    AsSource (.init (destination.getD ['.']) force)
      (.ok (.convert (some "init".toList) destination false force))
  | completions {shell : Shell} {t : Text} : Shell.ofText? t = some shell →
    AsSource (.completions shell none false)
      (.ok (.convert (some "completions".toList) (some t) false false))
  | own {shell : Shell} {outDir : Option Text} {stdout : Bool} : (outDir.isSome || stdout) = true →
    AsSource (.completions shell outDir stdout) (.error .unknownArgument)

theorem parse_init (args : List Text) :
    parse ("init".toList :: args) = (do
      let given ← Given.ofArguments .init args
      .ok (given.invocation (.init (given.values.headD ['.']) (given.has .force)))) := rfl

theorem parse_completions (args : List Text) :
    parse ("completions".toList :: args) = (do
      let given ← Given.ofArguments .completions args
      match given.values.head?.bind Shell.ofText? with
      | none => .error .missingRequired
      | some shell =>
        .ok (given.invocation (.completions shell given.outDir (given.has .stdout)))) := rfl

/-- The conversion that stands for a command behind flags. -/
theorem parseConvert_after {g : Grammar} (narrow : g.Narrow) {args : List Text} {flags : List Flag}
    {name : Text} {given : Given} (plain : ['-', '-'] ∉ args) (distinct : flags.Nodup)
    (absent : ∀ f ∈ flags, f.text ∉ args) (word : ∀ c rest, name ≠ '-' :: c :: rest)
    (some_name : name ≠ []) (ok : Given.ofArguments g args = .ok given) :
    parseConvert (flags.map Flag.text ++ name :: args) =
      if given.beyond then .error .unknownArgument
      else .ok ((given.invocation (.convert (some name) given.values.head? (given.has .all)
        (given.has .force))).flagged flags) := by
  rw [parseConvert,
    Given.ofArguments_after flags name narrow plain distinct absent word some_name ok,
    Given.converted]
  split
  · rfl
  · rw [← Given.invocation_after flags name]
    have all : (given.after flags name).has .all = given.has .all := by
      rw [Given.has_after, Given.has_flagged_own (by decide)]
    have force : (given.after flags name).has .force = given.has .force := by
      rw [Given.has_after, Given.has_flagged_own (by decide)]
    have destination : (given.after flags name).values[1]? = given.values.head? :=
      List.head?_eq_getElem?.symm
    change Except.ok ((given.after flags name).invocation _) = _
    rw [all, force, destination]
    rfl

theorem init_never {s : Switch} (other : s = .all ∨ s = .stdout) (a : Text) :
    ¬Grammar.init.Reads a s := by
  intro read
  cases read with
  | long listed _ => rcases other with rfl | rfl <;> simp [Grammar.init, Grammar.shared] at listed
  | short listed => rcases other with rfl | rfl <;> simp [Grammar.init] at listed

theorem completions_never {s : Switch} (other : s = .all ∨ s = .force) (a : Text) :
    ¬Grammar.completions.Reads a s := by
  intro read
  cases read with
  | long listed _ =>
    rcases other with rfl | rfl <;> simp [Grammar.completions, Grammar.shared] at listed
  | short listed => rcases other with rfl | rfl <;> simp [Grammar.completions] at listed

section Flags

variable {args : List Text} {flags : List Flag} {run : Invocation}

theorem parse_front (some_flag : flags ≠ []) (rest : List Text) :
    parse (flags.map Flag.text ++ rest) = parseConvert (flags.map Flag.text ++ rest) := by
  cases flags with
  | nil => exact absurd rfl some_flag
  | cons f others => cases f <;> rfl

theorem init_behind (plain : ['-', '-'] ∉ args) (distinct : flags.Nodup)
    (absent : ∀ f ∈ flags, f.text ∉ args) (parsed : parse ("init".toList :: args) = .ok run) :
    parse ("init".toList :: args ++ flags.map Flag.text) = .ok (run.flagged flags) := by
  obtain ⟨given, ok, same⟩ := bind_ok_iff.mp (parse_init args ▸ parsed)
  cases same
  have force : (given.flagged flags).has .force = given.has .force :=
    Given.has_flagged_own (by decide) flags
  have behind := Given.ofArguments_flags Grammar.narrow_init.toShared plain distinct absent ok
  rw [List.cons_append, parse_init, behind]
  change Except.ok ((given.flagged flags).invocation _) = _
  rw [Given.invocation_flagged, force]
  rfl

theorem init_in_front (plain : ['-', '-'] ∉ args) (distinct : flags.Nodup) (some_flag : flags ≠ [])
    (absent : ∀ f ∈ flags, f.text ∉ args) (parsed : parse ("init".toList :: args) = .ok run) :
    ∃ read, run.command.AsSource read ∧ parse (flags.map Flag.text ++ "init".toList :: args) =
      read.map fun command => { run.flagged flags with command } := by
  obtain ⟨given, ok, same⟩ := bind_ok_iff.mp (parse_init args ▸ parsed)
  cases same
  have within : given.beyond = false :=
    Given.ofArguments_within Grammar.narrow_init plain (init_never (.inr rfl))
      (by simp [Grammar.init, Grammar.shared]) ok
  have all : given.has .all = false := Given.never_has plain ok (init_never (.inl rfl))
  refine ⟨.ok (.convert (some "init".toList) given.values.head? false (given.has .force)), ?_, ?_⟩
  · rw [List.headD_eq_head?_getD]
    exact .init given.values.head? (given.has .force)
  · rw [parse_front some_flag, parseConvert_after Grammar.narrow_init plain distinct absent
      (by simp) (by simp) ok, within, all]
    rfl

theorem completions_given (parsed : parse ("completions".toList :: args) = .ok run) :
    ∃ given t shell, Given.ofArguments .completions args = .ok given ∧
      given.values.head? = some t ∧ Shell.ofText? t = some shell ∧
      run = given.invocation (.completions shell given.outDir (given.has .stdout)) := by
  obtain ⟨given, ok, made⟩ := bind_ok_iff.mp (parse_completions args ▸ parsed)
  split at made
  · cases made
  · rename_i shell found
    obtain ⟨t, first, known⟩ := Option.bind_eq_some_iff.mp found
    exact ⟨given, t, shell, ok, first, known, (Except.ok.inj made).symm⟩

theorem completions_behind (plain : ['-', '-'] ∉ args) (distinct : flags.Nodup)
    (absent : ∀ f ∈ flags, f.text ∉ args)
    (parsed : parse ("completions".toList :: args) = .ok run) :
    parse ("completions".toList :: args ++ flags.map Flag.text) = .ok (run.flagged flags) := by
  obtain ⟨given, t, shell, ok, first, known, rfl⟩ := completions_given parsed
  have stdout : (given.flagged flags).has .stdout = given.has .stdout :=
    Given.has_flagged_own (by decide) flags
  have behind :=
    Given.ofArguments_flags Grammar.narrow_completions.toShared plain distinct absent ok
  have found : (given.flagged flags).values.head?.bind Shell.ofText? = some shell :=
    Option.bind_eq_some_iff.mpr ⟨t, first, known⟩
  rw [List.cons_append, parse_completions, behind]
  simp only [bind, Except.bind, found]
  rw [Given.invocation_flagged, stdout]
  rfl

theorem completions_in_front (plain : ['-', '-'] ∉ args) (distinct : flags.Nodup)
    (some_flag : flags ≠ []) (absent : ∀ f ∈ flags, f.text ∉ args)
    (parsed : parse ("completions".toList :: args) = .ok run) :
    ∃ read, run.command.AsSource read ∧
      parse (flags.map Flag.text ++ "completions".toList :: args) =
        read.map fun command => { run.flagged flags with command } := by
  obtain ⟨given, t, shell, ok, first, known, rfl⟩ := completions_given parsed
  have all : given.has .all = false := Given.never_has plain ok (completions_never (.inl rfl))
  have force : given.has .force = false := Given.never_has plain ok (completions_never (.inr rfl))
  have settled : given.beyond = (given.outDir.isSome || given.has .stdout) := by
    obtain ⟨last, _, settled⟩ := bind_ok_iff.mp ok
    rw [Given.beyond, Given.settle_pending settled, Bool.or_false]
  rw [parse_front some_flag, parseConvert_after Grammar.narrow_completions plain distinct absent
    (by simp) (by simp) ok, settled]
  cases own : given.outDir.isSome || given.has .stdout with
  | true => exact ⟨_, .own own, rfl⟩
  | false =>
    obtain ⟨unsaved, unprinted⟩ := Bool.or_eq_false_iff.mp own
    have outDir : given.outDir = none := Option.isNone_iff_eq_none.mp (by simpa using unsaved)
    refine ⟨.ok (.convert (some "completions".toList) (some t) false false), ?_, ?_⟩
    · rw [outDir, unprinted]
      exact .completions known
    · rw [first, all, force]
      rfl

/-- Flags of all commands that do not occur in the arguments of one may follow them: the command and
its arguments stay, and the flags join the global settings. If the flags stand in front, the command
is not found. Its name is the source of a conversion with the same global settings then, and what
else it was given is read as for a conversion. -/
theorem parse_flags {name : String} (command : name ∈ ["init", "completions"])
    (plain : ['-', '-'] ∉ args) (distinct : flags.Nodup)
    (absent : ∀ f ∈ flags, f.text ∉ name.toList :: args)
    (parsed : parse (name.toList :: args) = .ok run) :
    parse (name.toList :: args ++ flags.map Flag.text) = .ok (run.flagged flags) ∧
    (flags ≠ [] → ∃ read, run.command.AsSource read ∧
      parse (flags.map Flag.text ++ name.toList :: args) =
        read.map fun command => { run.flagged flags with command }) := by
  have apart : ∀ f ∈ flags, f.text ∉ args := fun f listed inside =>
    absent f listed (List.mem_cons_of_mem _ inside)
  rcases List.mem_pair.mp command with rfl | rfl
  · exact ⟨init_behind plain distinct apart parsed, fun some_flag =>
      init_in_front plain distinct some_flag apart parsed⟩
  · exact ⟨completions_behind plain distinct apart parsed, fun some_flag =>
      completions_in_front plain distinct some_flag apart parsed⟩

end Flags

def initArguments : List Text := ["reports", "--force", "-vv"].map String.toList

def initRun : Invocation where
  command := .init "reports".toList true
  noColor := false
  quiet := false
  dryRun := false
  verbose := 2

theorem parse_flags_init :
    "init" ∈ ["init", "completions"] ∧ ['-', '-'] ∉ initArguments ∧
    [Flag.dryRun, .verbose].Nodup ∧
    (∀ f ∈ [Flag.dryRun, .verbose], f.text ∉ "init".toList :: initArguments) ∧
    parse ("init".toList :: initArguments) = .ok initRun ∧
    parse (["init", "reports", "--force", "-vv", "--dry-run", "-v"].map String.toList) =
      .ok { initRun with dryRun := true, verbose := 3 } ∧
    ∃ read, initRun.command.AsSource read ∧
      parse (["--dry-run", "-v", "init", "reports", "--force", "-vv"].map String.toList) =
        read.map fun command => { initRun with command, dryRun := true, verbose := 3 } := by
  have command : "init" ∈ ["init", "completions"] := by decide
  have plain : ['-', '-'] ∉ initArguments := by decide
  have distinct : [Flag.dryRun, .verbose].Nodup := by decide
  have absent : ∀ f ∈ [Flag.dryRun, .verbose], f.text ∉ "init".toList :: initArguments := by decide
  have parsed : parse ("init".toList :: initArguments) = .ok initRun := rfl
  obtain ⟨behind, front⟩ := parse_flags command plain distinct absent parsed
  exact ⟨command, plain, distinct, absent, parsed, behind, front (List.cons_ne_nil _ _)⟩

/-- In front of a command a flag hides it. -/
theorem parse_flag_hides :
    parse ["init".toList] = .ok
      { command := .init ['.'] false, noColor := false, quiet := false, dryRun := false,
        verbose := 0 } ∧
    Flag.quiet.text ∉ ["init".toList] ∧
    parse ["init".toList, Flag.quiet.text] = .ok
      { command := .init ['.'] false, noColor := false, quiet := true, dryRun := false,
        verbose := 0 } ∧
    parse [Flag.quiet.text, "init".toList] = .ok
      { command := .convert (some "init".toList) none false false, noColor := false, quiet := true,
        dryRun := false, verbose := 0 } := by
  refine ⟨rfl, by decide, rfl, rfl⟩

end SmaliReport.CommandLine
