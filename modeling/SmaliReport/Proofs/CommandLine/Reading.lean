import Mathlib.Logic.Relation
import SmaliReport.CommandLine.Arguments
import SmaliReport.Proofs.Description.Functions

/-!
How the arguments of a command are read. An argument has one of four forms, and whatever its form
is, it does a few things to what was given before. Arguments keep what each of these things keeps.
What is pending can be settled before an argument or by it: the outcome is the same.
-/

namespace SmaliReport.CommandLine

namespace Grammar

variable {g : Grammar}

/-- An argument asks for a switch. -/
inductive Reads (g : Grammar) (a : Text) (s : Switch) : Prop where
  | long {name : String} : (name, .switch s) ∈ g.longs → a = '-' :: '-' :: name.toList → Reads g a s
  | short {c : Char} : (c, s) ∈ g.shorts → Reads g a s

theorem mem_longs {t : Text} {found : String × Named}
    (known : g.longs.find? (fun (l, _) => l.toList = t) = some found) :
    found ∈ g.longs ∧ found.1.toList = t :=
  ⟨List.mem_of_find?_eq_some known, by simpa using List.find?_some known⟩

theorem mem_shorts {c : Char} {s : Switch} (known : g.shorts.lookup c = some s) :
    (c, s) ∈ g.shorts := by
  obtain ⟨before, after, shape, _⟩ := List.lookup_eq_some_iff.mp known
  simp [shape]

end Grammar

namespace Given

variable {g : Grammar} {given later : Given} {a : Text} {args : List Text}

/-! The forms of an argument. -/

inductive Form : Text → Prop where
  | marker : Form ['-', '-']
  | long {rest : Text} : rest ≠ [] → Form ('-' :: '-' :: rest)
  | shorts {c : Char} {rest : Text} : c ≠ '-' → Form ('-' :: c :: rest)
  | word {a : Text} : (∀ c rest, a ≠ '-' :: c :: rest) → Form a

theorem form (a : Text) : Form a := by
  match a with
  | [] => exact .word nofun
  | [c] => exact .word nofun
  | first :: c :: rest =>
    by_cases option : first = '-'
    · subst option
      by_cases double : c = '-'
      · subst double
        cases rest with
        | nil => exact .marker
        | cons d rest => exact .long nofun
      · exact .shorts double
    · exact .word fun c' rest' same => option (List.cons.inj same).1

theorem argument_long {rest : Text} (nonempty : rest ≠ []) :
    ∃ name attached, (attached = none → name = rest) ∧
      ∀ {g : Grammar} {given : Given}, given.onlyValues = false →
        argument g given ('-' :: '-' :: rest) = given.long g name attached := by
  cases rest with
  | nil => exact absurd rfl nonempty
  | cons d rest =>
    cases cut : Text.cut? '=' (d :: rest) with
    | none =>
      refine ⟨d :: rest, none, fun _ => rfl, fun ordinary => ?_⟩
      simp [argument, ordinary, cut]
    | some pair =>
      refine ⟨pair.1, pair.2, nofun, fun ordinary => ?_⟩
      simp [argument, ordinary, cut]

theorem argument_shorts {c : Char} {rest : Text} (other : c ≠ '-')
    (ordinary : given.onlyValues = false) :
    argument g given ('-' :: c :: rest) = given.shorts g (c :: rest) := by
  simp [argument, ordinary, other]

/-- A word is a value, unless an option waits for it. -/
theorem argument_word (word : ∀ c rest, a ≠ '-' :: c :: rest)
    (free : given.pending ≠ some (.outDir none)) : argument g given a = given.value g a := by
  simp [argument, word]

theorem argument_awaited (word : ∀ c rest, a ≠ '-' :: c :: rest)
    (waiting : given.pending = some (.outDir none)) (ordinary : given.onlyValues = false) :
    argument g given a = .ok { given with pending := some (.outDir (some a)) } := by
  simp [argument, ordinary, waiting, word]

/-! What an argument does. -/

/-- One of the things that an argument does to what is given. -/
inductive Effect (g : Grammar) (a : Text) : Given → Given → Prop where
  | settle {given later : Given} : given.settle g = .ok later → Effect g a given later
  | raise {given : Given} : Effect g a given { given with verbose := min 255 (given.verbose + 1) }
  | add {given : Given} {s : Switch} : g.Reads a s →
      Effect g a given { given with switches := given.switches ++ [s] }
  | word {given : Given} {t : Text} : given.pending = none →
      Effect g a given { given with pending := some (.value t) }
  | outDir {given : Given} {name : String} {d : Option Text} : (name, .outDir) ∈ g.longs →
      given.pending = none → Effect g a given { given with pending := some (.outDir d) }
  | attach {given : Given} : given.pending = some (.outDir none) →
      Effect g a given { given with pending := some (.outDir (some a)) }

theorem settle_cases (ok : given.settle g = .ok later) :
    (given.pending = none ∧ later = given) ∨
    (∃ t, given.pending = some (.value t) ∧ g.accepts t = true ∧
      later = { given with values := given.values ++ [t], pending := none }) ∨
    (∃ t, given.pending = some (.outDir (some t)) ∧
      later = { given with outDir := some t, pending := none }) := by
  unfold settle at ok
  split at ok
  · rename_i empty
    exact .inl ⟨empty, (Except.ok.inj ok).symm⟩
  · rename_i t waiting
    split at ok
    · rename_i accepted
      exact .inr (.inl ⟨t, waiting, accepted, (Except.ok.inj ok).symm⟩)
    · cases ok
  · cases ok
  · rename_i t waiting
    split at ok
    · cases ok
    · split at ok
      · cases ok
      · exact .inr (.inr ⟨t, waiting, (Except.ok.inj ok).symm⟩)

theorem settle_pending (ok : given.settle g = .ok later) : later.pending = none := by
  rcases settle_cases ok with ⟨empty, rfl⟩ | ⟨t, _, _, rfl⟩ | ⟨t, _, rfl⟩
  · exact empty
  · rfl
  · rfl

theorem settle_onlyValues (ok : given.settle g = .ok later) :
    later.onlyValues = given.onlyValues := by
  rcases settle_cases ok with ⟨_, rfl⟩ | ⟨_, _, _, rfl⟩ | ⟨_, _, rfl⟩ <;> rfl

theorem settle_switches (ok : given.settle g = .ok later) : later.switches = given.switches := by
  rcases settle_cases ok with ⟨_, rfl⟩ | ⟨_, _, _, rfl⟩ | ⟨_, _, rfl⟩ <;> rfl

theorem settle_settled (settled : given.pending = none) : given.settle g = .ok given := by
  rw [settle, settled]

theorem switch_cases {s : Switch} (ok : given.switch g s = .ok later) :
    ∃ settled, given.settle g = .ok settled ∧
      ((s = .verbose ∧ later = { settled with verbose := min 255 (settled.verbose + 1) }) ∨
      (s ≠ .verbose ∧ s ≠ .help ∧ s ≠ .version ∧ s ∉ settled.switches ∧
        later = { settled with switches := settled.switches ++ [s] })) := by
  obtain ⟨settled, here, ok⟩ := bind_ok_iff.mp ok
  refine ⟨settled, here, ?_⟩
  split at ok
  · cases ok
  · cases ok
  · exact .inl ⟨rfl, (Except.ok.inj ok).symm⟩
  · rename_i help version verbose
    split at ok
    · cases ok
    · rename_i fresh
      exact .inr ⟨verbose, help, version, fresh, (Except.ok.inj ok).symm⟩

theorem switch_fresh {s : Switch} (counted : s ≠ .verbose) (help : s ≠ .help)
    (version : s ≠ .version) (settled : given.settle g = .ok later) (fresh : s ∉ later.switches) :
    given.switch g s = .ok { later with switches := later.switches ++ [s] } := by
  rw [switch, settled]
  cases s with
  | help => exact absurd rfl help
  | version => exact absurd rfl version
  | verbose => exact absurd rfl counted
  | _ => exact if_neg fresh

theorem switch_effects {s : Switch} (read : g.Reads a s) (ok : given.switch g s = .ok later) :
    Relation.ReflTransGen (Effect g a) given later := by
  obtain ⟨settled, here, ⟨rfl, rfl⟩ | ⟨_, _, _, _, rfl⟩⟩ := switch_cases ok
  · exact .tail (.single (.settle here)) .raise
  · exact .tail (.single (.settle here)) (.add read)

theorem shorts_cons {c : Char} {s : Switch} (found : g.shorts.lookup c = some s) (given : Given)
    (rest : Text) :
    given.shorts g (c :: rest) = given.switch g s >>= fun next => next.shorts g rest := by
  rw [shorts, List.foldlM_cons, found]
  rfl

theorem shorts_effects {names : Text} (ok : given.shorts g names = .ok later) :
    Relation.ReflTransGen (Effect g a) given later := by
  induction names generalizing given with
  | nil =>
    cases ok
    exact .refl
  | cons c rest ih =>
    rw [shorts, List.foldlM_cons] at ok
    obtain ⟨next, here, ok⟩ := bind_ok_iff.mp ok
    split at here
    · rename_i s found
      exact (switch_effects (.short (Grammar.mem_shorts found)) here).trans (ih ok)
    · cases here

theorem long_effects {name : Text} {attached : Option Text}
    (spelled : attached = none → a = '-' :: '-' :: name)
    (ok : given.long g name attached = .ok later) :
    Relation.ReflTransGen (Effect g a) given later := by
  unfold long at ok
  split at ok
  · cases ok
  · rename_i l s found
    obtain ⟨listed, rfl⟩ := Grammar.mem_longs found
    exact switch_effects (.long listed (spelled rfl)) ok
  · cases ok
  · rename_i l found
    obtain ⟨settled, here, ok⟩ := bind_ok_iff.mp ok
    cases ok
    have listed := (Grammar.mem_longs found).1
    exact .tail (.single (.settle here)) (.outDir listed (settle_pending here))
  · rename_i l t found
    obtain ⟨settled, here, ok⟩ := bind_ok_iff.mp ok
    have listed := (Grammar.mem_longs found).1
    exact .tail (.tail (.single (.settle here)) (.outDir listed (settle_pending here))) (.settle ok)

theorem value_effects {t : Text} (ok : given.value g t = .ok later) :
    Relation.ReflTransGen (Effect g a) given later := by
  unfold value at ok
  split at ok
  · cases ok
  · obtain ⟨settled, here, ok⟩ := bind_ok_iff.mp ok
    cases ok
    exact .tail (.single (.settle here)) (.word (settle_pending here))

theorem argument_effects (plain : a ≠ ['-', '-']) (ok : argument g given a = .ok later) :
    Relation.ReflTransGen (Effect g a) given later := by
  cases closed : given.onlyValues with
  | true =>
    unfold argument at ok
    rw [if_pos closed] at ok
    exact value_effects ok
  | false =>
    cases form a with
    | marker => exact absurd rfl plain
    | long nonempty =>
      obtain ⟨name, attached, spelled, read⟩ := argument_long nonempty
      rw [read closed] at ok
      exact long_effects (fun bare => by rw [spelled bare]) ok
    | shorts other =>
      rw [argument_shorts other closed] at ok
      exact shorts_effects ok
    | word word =>
      by_cases waiting : given.pending = some (.outDir none)
      · rw [argument_awaited word waiting closed] at ok
        cases ok
        exact .single (.attach waiting)
      · rw [argument_word word waiting] at ok
        exact value_effects ok

theorem argument_keeps {P : Given → Prop} (plain : a ≠ ['-', '-'])
    (kept : ∀ given later, Effect g a given later → P given → P later) (start : P given)
    (ok : argument g given a = .ok later) : P later := by
  have effects := argument_effects plain ok
  clear ok
  induction effects with
  | refl => exact start
  | tail _ effect before => exact kept _ _ effect before

/-- What every effect keeps, the arguments of a command keep. -/
theorem run_keeps {P : Given → Prop} (plain : ['-', '-'] ∉ args)
    (kept : ∀ a ∈ args, ∀ given later, Effect g a given later → P given → P later)
    (start : P given) (ok : args.foldlM (argument g) given = .ok later) : P later := by
  induction args generalizing given with
  | nil =>
    cases ok
    exact start
  | cons a rest ih =>
    rw [List.foldlM_cons] at ok
    obtain ⟨next, here, ok⟩ := bind_ok_iff.mp ok
    have first := argument_keeps (fun same => plain (same ▸ List.mem_cons_self))
      (kept a List.mem_cons_self) start here
    exact ih (fun inside => plain (List.mem_cons_of_mem a inside))
      (fun b inside => kept b (List.mem_cons_of_mem a inside)) first ok

theorem Effect.onlyValues_eq (effect : Effect g a given later) :
    later.onlyValues = given.onlyValues := by
  cases effect with
  | settle ok => exact settle_onlyValues ok
  | raise => rfl
  | add _ => rfl
  | word _ => rfl
  | outDir _ _ => rfl
  | attach _ => rfl

/-- Options are read up to the end if none of the arguments is `--`. -/
theorem run_onlyValues (plain : ['-', '-'] ∉ args)
    (ok : args.foldlM (argument g) {} = .ok later) : later.onlyValues = false :=
  run_keeps (P := fun given => given.onlyValues = false) plain
    (fun _ _ _ _ effect before => effect.onlyValues_eq.trans before) rfl ok

/-- What is switched on was asked for. -/
theorem run_switches (plain : ['-', '-'] ∉ args)
    (ok : args.foldlM (argument g) {} = .ok later) :
    ∀ s ∈ later.switches, ∃ a ∈ args, g.Reads a s := by
  refine run_keeps (P := fun given => ∀ s ∈ given.switches, ∃ a ∈ args, g.Reads a s) plain
    (fun a inside given later effect asked => ?_) (by nofun) ok
  cases effect with
  | settle ok => rwa [settle_switches ok]
  | raise => exact asked
  | add read =>
    intro s set
    rcases List.mem_append.mp set with before | new
    · exact asked s before
    · rw [List.mem_singleton.mp new]
      exact ⟨a, inside, read⟩
  | word _ => exact asked
  | outDir _ _ => exact asked
  | attach _ => exact asked

/-! A settled state takes arguments as the state before it does. -/

theorem switch_settle (settled : given.settle g = .ok later) (s : Switch) :
    given.switch g s = later.switch g s := by
  rw [switch, switch, settled, settle_settled (settle_pending settled)]

theorem long_settle (settled : given.settle g = .ok later) (name : Text) (attached : Option Text) :
    given.long g name attached = later.long g name attached := by
  unfold long
  split
  · rfl
  · exact switch_settle settled _
  · rfl
  · rw [settled, settle_settled (settle_pending settled)]
  · rw [settled, settle_settled (settle_pending settled)]

theorem shorts_settle (settled : given.settle g = .ok later) (c : Char) (rest : Text) :
    given.shorts g (c :: rest) = later.shorts g (c :: rest) := by
  simp only [shorts, List.foldlM_cons, switch_settle settled]

theorem value_settle (settled : given.settle g = .ok later) (t : Text) :
    given.value g t = later.value g t := by
  have counted : given.count = later.count := by
    rcases settle_cases settled with ⟨_, rfl⟩ | ⟨t, waiting, _, rfl⟩ | ⟨t, waiting, rfl⟩
    · rfl
    · simp [count, waiting]
    · simp [count, waiting]
  rw [value, value, counted, settled, settle_settled (settle_pending settled)]

theorem argument_settle (ordinary : given.onlyValues = false) (plain : a ≠ ['-', '-'])
    (settled : given.settle g = .ok later) : argument g given a = argument g later a := by
  have still : later.onlyValues = false := (settle_onlyValues settled).trans ordinary
  have here : given.pending ≠ some (.outDir none) := by
    intro waiting
    rw [settle, waiting] at settled
    cases settled
  have there : later.pending ≠ some (.outDir none) := by
    rw [settle_pending settled]
    nofun
  cases form a with
  | marker => exact absurd rfl plain
  | long rest =>
    obtain ⟨name, attached, _, read⟩ := argument_long rest
    rw [read ordinary, read still, long_settle settled]
  | shorts other => rw [argument_shorts other ordinary, argument_shorts other still,
      shorts_settle settled]
  | word word => rw [argument_word word here, argument_word word there, value_settle settled]

theorem run_settle (ordinary : given.onlyValues = false)
    (plain : ['-', '-'] ∉ args) (settled : given.settle g = .ok later) :
    args.foldlM (argument g) given >>= settle g = args.foldlM (argument g) later >>= settle g := by
  cases args with
  | nil => exact settled.trans (settle_settled (settle_pending settled)).symm
  | cons a rest =>
    -- Only the first argument meets what is pending.
    have first := argument_settle ordinary (fun same => plain (same ▸ List.mem_cons_self)) settled
    rw [List.foldlM_cons, List.foldlM_cons, first]

theorem never_has (plain : ['-', '-'] ∉ args)
    (ok : ofArguments g args = .ok given) {s : Switch} (never : ∀ a, ¬g.Reads a s) :
    given.has s = false := by
  obtain ⟨last, run, settled⟩ := bind_ok_iff.mp ok
  refine decide_eq_false fun set => ?_
  obtain ⟨a, _, read⟩ := run_switches plain run s (settle_switches settled ▸ set)
  exact never a read

end Given

end SmaliReport.CommandLine
