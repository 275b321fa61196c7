import Mathlib.Data.List.Forall2
import SmaliReport.Description.Read
import SmaliReport.Proofs.Names.Lookup

/-!
A type stands in place, or at the end of the type table in scope with its position as the id of the
place. The description of a class does not tell the one from the other, in whatever order the types
went to the tables.
-/

namespace SmaliReport

namespace Payload

def typesOf (table : Option TypeTable) : List TypeRef := (table.map (·.types)).getD []

/-- The types of a table of one's own, if it counts. -/
def own? (table : Option TypeTable) : Option (List TypeRef) :=
  (table.map (·.types)).filter (!·.isEmpty)

theorem own?_eq_some_iff {table : Option TypeTable} {types : List TypeRef} :
    own? table = some types ↔ table = some ⟨types⟩ ∧ types ≠ [] := by
  cases table with
  | none => simp [own?]
  | some table =>
    simp only [own?, Option.map_some, Option.filter_eq_some_iff, Option.some.injEq]
    constructor
    · rintro ⟨rfl, counts⟩
      exact ⟨rfl, by simpa using counts⟩
    · rintro ⟨rfl, counts⟩
      exact ⟨rfl, by simpa using counts⟩

section Relation

/-- The id is the position of the type. -/
def Points (types : List TypeRef) (id : Int32) (type : TypeRef) : Prop :=
  ∃ i : Nat, id.toInt = i ∧ types[i]? = some type

/-- Type and id of a place, and what became of them: a type in place went to the table, and a place
without type is as it was. -/
inductive Moved (types : List TypeRef) :
    Option TypeRef → Option Int32 → Option TypeRef → Option Int32 → Prop
  | placed {type id position} (points : Points types position type) :
      Moved types (some type) id none (some position)
  | kept {id} : Moved types none id none id

structure Parameter.Tabled (types : List TypeRef) (p p' : Parameter) : Prop where
  type : Moved types p.type p.typeId p'.type p'.typeId
  rest : p' = { p with type := p'.type, typeId := p'.typeId }

structure Constructor.Tabled (types : List TypeRef) (c c' : Constructor) : Prop where
  parameters : List.Forall₂ (Parameter.Tabled types) c.parameters c'.parameters
  rest : c' = { c with parameters := c'.parameters }

structure Property.Tabled (types : List TypeRef) (p p' : Property) : Prop where
  type : Moved types p.returnType p.returnTypeId p'.returnType p'.returnTypeId
  rest : p' = { p with returnType := p'.returnType, returnTypeId := p'.returnTypeId }

structure Function.TabledIn (types : List TypeRef) (f f' : Function) : Prop where
  receiver : Moved types f.receiverType f.receiverTypeId f'.receiverType f'.receiverTypeId
  parameters : List.Forall₂ (Parameter.Tabled types) f.parameters f'.parameters
  result : Moved types f.returnType f.returnTypeId f'.returnType f'.returnTypeId
  rest : f' = { f with
    receiverType := f'.receiverType, receiverTypeId := f'.receiverTypeId,
    parameters := f'.parameters, returnType := f'.returnType, returnTypeId := f'.returnTypeId,
    typeTable := f'.typeTable }

/-- The types of a function go to its own table where that counts, else to the outer one. -/
def Function.Tabled (outer : List TypeRef) (f f' : Function) : Prop :=
  match own? f.typeTable with
  | some types => ∃ final, types <+: final ∧ f'.typeTable = some ⟨final⟩ ∧ f.TabledIn final f'
  | none => f'.typeTable = f.typeTable ∧ f.TabledIn outer f'

structure Class.TabledIn (types : List TypeRef) (c c' : Class) : Prop where
  bare : c'.supertypes = []
  supertypes : ∃ ids, c'.supertypeIds = c.supertypeIds ++ ids ∧
    List.Forall₂ (fun type id => Points types id type) c.supertypes ids
  constructors : List.Forall₂ (Constructor.Tabled types) c.constructors c'.constructors
  functions : List.Forall₂ (Function.Tabled types) c.functions c'.functions
  properties : List.Forall₂ (Property.Tabled types) c.properties c'.properties
  rest : c' = { c with
    supertypes := c'.supertypes, supertypeIds := c'.supertypeIds, constructors := c'.constructors,
    functions := c'.functions, properties := c'.properties, typeTable := c'.typeTable }

/-- The second class is the first one, with every type that stood in place in a table. -/
structure Class.Tabled (c c' : Class) : Prop where
  grown : typesOf c.typeTable <+: typesOf c'.typeTable
  tabled : c.TabledIn (typesOf c'.typeTable) c'

end Relation

section Pass

/-- A type goes to the end of the table, and its position is its id. -/
def place (type : TypeRef) : StateM (List TypeRef) Int32 :=
  modifyGet fun types => (Int32.ofNat types.length, types ++ [type])

def move (inline : Option TypeRef) (id : Option Int32) : StateM (List TypeRef) (Option Int32) :=
  match inline with
  | some type => some <$> place type
  | none => pure id

def Parameter.tabled (p : Parameter) : StateM (List TypeRef) Parameter := do
  let typeId ← move p.type p.typeId
  pure { p with type := none, typeId }

def Constructor.tabled (c : Constructor) : StateM (List TypeRef) Constructor := do
  let parameters ← c.parameters.mapM Parameter.tabled
  pure { c with parameters }

def Property.tabled (p : Property) : StateM (List TypeRef) Property := do
  let returnTypeId ← move p.returnType p.returnTypeId
  pure { p with returnType := none, returnTypeId }

def Function.tabledIn (f : Function) : StateM (List TypeRef) Function := do
  let receiverTypeId ← move f.receiverType f.receiverTypeId
  let parameters ← f.parameters.mapM Parameter.tabled
  let returnTypeId ← move f.returnType f.returnTypeId
  pure { f with receiverType := none, receiverTypeId, parameters, returnType := none, returnTypeId }

def Function.tabled (f : Function) : StateM (List TypeRef) Function :=
  match own? f.typeTable with
  | some types =>
    let (f', final) := f.tabledIn types
    pure { f' with typeTable := some ⟨final⟩ }
  | none => f.tabledIn

def Class.tabledIn (c : Class) : StateM (List TypeRef) Class := do
  let ids ← c.supertypes.mapM place
  let constructors ← c.constructors.mapM Constructor.tabled
  let functions ← c.functions.mapM Function.tabled
  let properties ← c.properties.mapM Property.tabled
  pure { c with
    supertypes := [], supertypeIds := c.supertypeIds ++ ids, constructors, functions, properties }

/-- The class with every type in a table. -/
def Class.tabled (c : Class) : Class :=
  let (c', final) := c.tabledIn (typesOf c.typeTable)
  { c' with typeTable := some ⟨final⟩ }

/-- A table has no more types than there are ids. -/
def Fits (types : List TypeRef) : Prop := types.length ≤ 0x80000000

instance (types : List TypeRef) : Decidable (Fits types) := inferInstanceAs (Decidable (_ ≤ _))

/-- A pass puts types at the end of a table. What it promises holds of the table it leaves, and of
every table that fits and begins like that one. -/
def Keeps {β : Type} (pass : StateM (List TypeRef) β) (promise : List TypeRef → β → Prop) : Prop :=
  ∀ before, before <+: (pass before).2 ∧
    ∀ final, (pass before).2 <+: final → Fits final → promise final (pass before).1

namespace Keeps

variable {α β γ : Type}

theorem pure {promise : List TypeRef → β → Prop} {b : β} (kept : ∀ final, promise final b) :
    Keeps (pure b) promise :=
  fun before => ⟨List.prefix_refl before, fun final _ _ => kept final⟩

theorem bind {pass : StateM (List TypeRef) β} {next : β → StateM (List TypeRef) γ}
    {promise : List TypeRef → β → Prop} {goal : List TypeRef → γ → Prop}
    (keeps : Keeps pass promise)
    (each : ∀ b, Keeps (next b) fun final c => promise final b → goal final c) :
    Keeps (pass >>= next) goal := by
  intro before
  obtain ⟨grown, kept⟩ := keeps before
  obtain ⟨more, ended⟩ := each (pass before).1 (pass before).2
  refine ⟨grown.trans more, fun final begins fits => ?_⟩
  exact ended final begins fits (kept final (more.trans begins) fits)

theorem mapM {pass : α → StateM (List TypeRef) β} {promise : List TypeRef → α → β → Prop}
    (each : ∀ a, Keeps (pass a) fun final b => promise final a b) (as : List α) :
    Keeps (as.mapM pass) fun final bs => List.Forall₂ (promise final) as bs := by
  induction as with
  | nil => exact .pure fun _ => .nil
  | cons a rest ih =>
    rw [List.mapM_cons]
    exact (each a).bind fun b => ih.bind fun bs => .pure fun final tail head => .cons head tail

end Keeps

theorem place_keeps (type : TypeRef) : Keeps (place type) fun final id => Points final id type := by
  refine fun before => ⟨List.prefix_append before [type], fun final begins fits => ?_⟩
  have longer : (before ++ [type]).length ≤ final.length := begins.length_le
  have room : before.length < 0x80000000 := by
    rw [List.length_append] at longer
    exact Nat.lt_of_lt_of_le longer fits
  have value : (Int32.ofNat before.length).toInt = before.length := by
    rw [← Int32.ofInt_eq_ofNat, Int32.toInt_ofInt_of_le (by omega) (by omega)]
  obtain ⟨more, rfl⟩ := begins
  have found : (before ++ [type] ++ more)[before.length]? = some type := by simp
  exact ⟨before.length, value, found⟩

theorem move_keeps (inline : Option TypeRef) (id : Option Int32) :
    Keeps (move inline id) fun final id' => Moved final inline id none id' := by
  cases inline with
  | none => exact .pure fun _ => .kept
  | some type =>
    exact (place_keeps type).bind fun position => .pure fun _ points => .placed points

theorem Parameter.tabled_keeps (p : Parameter) :
    Keeps p.tabled fun final p' => p.Tabled final p' :=
  (move_keeps p.type p.typeId).bind fun _ => .pure fun _ moved => ⟨moved, rfl⟩

theorem Constructor.tabled_keeps (c : Constructor) :
    Keeps c.tabled fun final c' => c.Tabled final c' :=
  (Keeps.mapM Parameter.tabled_keeps c.parameters).bind fun _ => .pure fun _ moved => ⟨moved, rfl⟩

theorem Property.tabled_keeps (p : Property) :
    Keeps p.tabled fun final p' => p.Tabled final p' :=
  (move_keeps p.returnType p.returnTypeId).bind fun _ => .pure fun _ moved => ⟨moved, rfl⟩

theorem Function.tabledIn_keeps (f : Function) :
    Keeps f.tabledIn fun final f' => f'.typeTable = f.typeTable ∧ f.TabledIn final f' := by
  refine (move_keeps f.receiverType f.receiverTypeId).bind fun _ => ?_
  refine (Keeps.mapM Parameter.tabled_keeps f.parameters).bind fun _ => ?_
  refine (move_keeps f.returnType f.returnTypeId).bind fun _ => ?_
  exact .pure fun _ result parameters receiver => ⟨rfl, receiver, parameters, result, rfl⟩

theorem Function.TabledIn.with_table {types : List TypeRef} {f f' : Function}
    (tabled : f.TabledIn types f') (table : Option TypeTable) :
    f.TabledIn types { f' with typeTable := table } where
  receiver := tabled.receiver
  parameters := tabled.parameters
  result := tabled.result
  rest := by rw [tabled.rest]

theorem Function.tabled_keeps (f : Function) :
    Keeps f.tabled fun final f' => Fits (typesOf f'.typeTable) → f.Tabled final f' := by
  unfold Function.tabled Function.Tabled
  cases own? f.typeTable with
  | none =>
    intro before
    obtain ⟨grown, kept⟩ := f.tabledIn_keeps before
    exact ⟨grown, fun final begins fits _ => kept final begins fits⟩
  | some types =>
    obtain ⟨grown, kept⟩ := f.tabledIn_keeps types
    refine .pure fun _ fits => ⟨_, grown, rfl, ?_⟩
    exact (kept _ (List.prefix_refl _) fits).2.with_table _

theorem Class.TabledIn.with_table {types : List TypeRef} {c c' : Class}
    (tabled : c.TabledIn types c') (table : Option TypeTable) :
    c.TabledIn types { c' with typeTable := table } where
  bare := tabled.bare
  supertypes := tabled.supertypes
  constructors := tabled.constructors
  functions := tabled.functions
  properties := tabled.properties
  rest := by rw [tabled.rest]

theorem Class.tabledIn_keeps (c : Class) :
    Keeps c.tabledIn fun final c' =>
      (∀ f ∈ c'.functions, Fits (typesOf f.typeTable)) → c.TabledIn final c' := by
  refine (Keeps.mapM place_keeps c.supertypes).bind fun ids => ?_
  refine (Keeps.mapM Constructor.tabled_keeps c.constructors).bind fun _ => ?_
  refine (Keeps.mapM Function.tabled_keeps c.functions).bind fun fs => ?_
  refine (Keeps.mapM Property.tabled_keeps c.properties).bind fun _ => ?_
  refine .pure fun final properties functions constructors supertypes fits => ?_
  have functions : List.Forall₂ (Function.Tabled final) c.functions fs := by
    have both := (List.forall₂_and_left _ _).mpr ⟨fits, functions.flip⟩
    exact both.flip.imp fun f f' holds => holds.2 holds.1
  exact ⟨rfl, ⟨ids, rfl, supertypes⟩, constructors, functions, properties, rfl⟩

/-- The types of a class can be moved to tables, unless these outgrow the ids. -/
theorem Class.tabled_tabled (c : Class) (fits : Fits (typesOf c.tabled.typeTable))
    (each : ∀ f ∈ c.tabled.functions, Fits (typesOf f.typeTable)) : c.Tabled c.tabled := by
  obtain ⟨grown, kept⟩ := c.tabledIn_keeps (typesOf c.typeTable)
  exact ⟨grown, (kept _ (List.prefix_refl _) fits each).with_table _⟩

end Pass

section Inside

/-- An id inside a table. -/
def Inside (types : List TypeRef) (id : Int32) : Prop := 0 ≤ id.toInt ∧ id.toInt < types.length

/-- The id of a place is inside the table, unless a type in place wins over it. -/
def TypeInside (types : List TypeRef) : Option TypeRef → Option Int32 → Prop
  | none, some id => Inside types id
  | none, none => True
  | some _, _ => True

/-- A constructor with a descriptor has no use for its types. -/
def Constructor.TypesInside (types : List TypeRef) (c : Constructor) : Prop :=
  c.signature.bind (·.desc) = none → ∀ p ∈ c.parameters, TypeInside types p.type p.typeId

def Function.TypesInside (types : List TypeRef) (f : Function) : Prop :=
  f.signature.bind (·.desc) = none →
    TypeInside types f.receiverType f.receiverTypeId ∧
      (∀ p ∈ f.parameters, TypeInside types p.type p.typeId) ∧
        TypeInside types f.returnType f.returnTypeId

/-- Only the field of a property has a use for its type, and not if it has a descriptor. -/
def Property.TypesInside (types : List TypeRef) (p : Property) : Prop :=
  ∀ field ∈ p.signature.bind (·.field), field.desc = none →
    TypeInside types p.returnType p.returnTypeId

structure Class.TypesInside (c : Class) : Prop where
  supertypes : c.supertypes = [] → ∀ id ∈ c.supertypeIds, Inside (typesOf c.typeTable) id
  constructors : ∀ k ∈ c.constructors, k.TypesInside (typesOf c.typeTable)
  functions : ∀ f ∈ c.functions, f.TypesInside ((own? f.typeTable).getD (typesOf c.typeTable))
  properties : ∀ p ∈ c.properties, p.TypesInside (typesOf c.typeTable)

instance (types : List TypeRef) (id : Int32) : Decidable (Inside types id) :=
  inferInstanceAs (Decidable (_ ∧ _))

instance (types : List TypeRef) (inline : Option TypeRef) (id : Option Int32) :
    Decidable (TypeInside types inline id) :=
  match inline, id with
  | none, some id => inferInstanceAs (Decidable (Inside types id))
  | none, none => isTrue trivial
  | some _, _ => isTrue trivial

instance (types : List TypeRef) (c : Constructor) : Decidable (c.TypesInside types) :=
  inferInstanceAs (Decidable (_ → _))

instance (types : List TypeRef) (f : Function) : Decidable (f.TypesInside types) :=
  inferInstanceAs (Decidable (_ → _))

instance (types : List TypeRef) (p : Property) : Decidable (p.TypesInside types) :=
  inferInstanceAs (Decidable (∀ field ∈ _, _))

end Inside

end Payload

namespace Scope

open Payload (TypeRef TypeTable Parameter Points Moved Inside TypeInside own? own?_eq_some_iff
  typesOf)

theorem mapM_related {α β γ : Type} {known : α → Prop} {related : α → β → Prop}
    {read : α → Except DecodeError γ} {other : β → Except DecodeError γ} {as : List α}
    {bs : List β} (all : ∀ a ∈ as, known a) (both : List.Forall₂ related as bs)
    (each : ∀ a b, known a → related a b → other b = read a) : bs.mapM other = as.mapM read := by
  induction both with
  | nil => rfl
  | cons head tail ih =>
    obtain ⟨first, rest⟩ := List.forall_mem_cons.mp all
    rw [List.mapM_cons, List.mapM_cons, each _ _ first head, ih rest]

section Names

variable (names : StringTable) (types final : List TypeRef)

/-- Types once found, the rest is up to the names. -/
theorem descriptors?_eq (parameters : List (Option TypeRef)) :
    (Scope.mk names final).descriptors? parameters =
      (Scope.mk names types).descriptors? parameters := by
  induction parameters with
  | nil => rfl
  | cons type rest ih =>
    simp only [descriptors?, ih]
    rfl

theorem methodDescriptor?_eq (parameters : List (Option TypeRef)) (result : Option Text) :
    (Scope.mk names final).methodDescriptor? parameters result =
      (Scope.mk names types).methodDescriptor? parameters result := by
  simp only [methodDescriptor?, descriptors?_eq names types final]

theorem within_eq (table : Option TypeTable) :
    (Scope.mk names types).within table = ⟨names, (own? table).getD types⟩ := by
  cases table with
  | none => rfl
  | some table => cases empty : table.types.isEmpty <;> simp [within, own?, empty, Option.filter]

end Names

variable {names : StringTable} {types final : List TypeRef}

theorem typeAt_points {id : Int32} {type : TypeRef} (points : Points types id type) :
    (Scope.mk names types).typeAt id = .ok type := by
  obtain ⟨i, at_i, found⟩ := points
  simp only [typeAt, StringTable.index?_eq_some_iff.mpr at_i, Option.bind_some, found]

theorem typeAt_inside {id : Int32} (grown : types <+: final) (inside : Inside types id) :
    (Scope.mk names final).typeAt id = (Scope.mk names types).typeAt id := by
  obtain ⟨i, at_i⟩ := Int.eq_ofNat_of_zero_le inside.1
  have below : i < types.length := by
    have := inside.2
    omega
  have same : final[i]? = types[i]? := by
    obtain ⟨more, rfl⟩ := grown
    exact List.getElem?_append_left below
  simp only [typeAt, StringTable.index?_eq_some_iff.mpr at_i, Option.bind_some, same]

/-- A place gives the type it gave before it was moved, and the error it gave. -/
theorem type?_moved {inline inline' : Option TypeRef} {id id' : Option Int32}
    (grown : types <+: final) (inside : TypeInside types inline id)
    (moved : Moved final inline id inline' id') :
    (Scope.mk names final).type? inline' id' = (Scope.mk names types).type? inline id := by
  cases moved with
  | placed points => simp only [type?, typeAt_points points, Except.map]
  | kept =>
    cases id with
    | none => rfl
    | some i => simp only [type?, typeAt_inside grown inside]

theorem parameterTypes_tabled {parameters parameters' : List Parameter} (grown : types <+: final)
    (inside : ∀ p ∈ parameters, TypeInside types p.type p.typeId)
    (tabled : List.Forall₂ (Parameter.Tabled final) parameters parameters') :
    (Scope.mk names final).parameterTypes parameters' =
      (Scope.mk names types).parameterTypes parameters :=
  mapM_related inside tabled fun _ _ inside tabled => type?_moved grown inside tabled.type

theorem argumentNames_tabled (types : List TypeRef) {parameters parameters' : List Parameter}
    (tabled : List.Forall₂ (Parameter.Tabled final) parameters parameters') :
    (Scope.mk names final).argumentNames parameters' =
      (Scope.mk names types).argumentNames parameters := by
  refine mapM_related (fun _ _ => trivial) tabled fun p p' _ tabled => ?_
  rw [tabled.rest]

theorem constructor_tabled {c c' : Payload.Constructor} (grown : types <+: final)
    (inside : c.TypesInside types) (tabled : c.Tabled final c') :
    (Scope.mk names final).constructor c' = (Scope.mk names types).constructor c := by
  have signature : c'.signature = c.signature := by rw [tabled.rest]
  unfold constructor
  rw [signature, argumentNames_tabled types tabled.parameters]
  cases desc : c.signature.bind (·.desc) with
  | some i => rfl
  | none =>
    simp only [parameterTypes_tabled grown (inside desc) tabled.parameters,
      methodDescriptor?_eq names types final]
    rfl

theorem property_tabled {p p' : Payload.Property} (grown : types <+: final)
    (inside : p.TypesInside types) (tabled : p.Tabled final p') :
    (Scope.mk names final).property p' = (Scope.mk names types).property p := by
  have name : p'.name = p.name := by rw [tabled.rest]
  have signature : p'.signature = p.signature := by rw [tabled.rest]
  unfold property
  rw [name, signature]
  cases present : p.signature.bind (·.field) with
  | none => rfl
  | some field =>
    cases desc : field.desc with
    | some i =>
      simp only [desc]
      rfl
    | none =>
      simp only [desc, type?_moved grown (inside field present desc) tabled.type]
      rfl

/-- A function in the table that counts for it, whichever that is. -/
theorem function_tabledIn {outer outer' : Scope} {f f' : Payload.Function}
    (before : outer.within f.typeTable = ⟨names, types⟩)
    (after : outer'.within f'.typeTable = ⟨names, final⟩) (grown : types <+: final)
    (inside : f.TypesInside types) (tabled : f.TabledIn final f') :
    outer'.function f' = outer.function f := by
  have name : f'.name = f.name := by rw [tabled.rest]
  have signature : f'.signature = f.signature := by rw [tabled.rest]
  unfold function
  simp only [before, after, name, signature, argumentNames_tabled types tabled.parameters]
  cases desc : f.signature.bind (·.desc) with
  | some i => rfl
  | none =>
    obtain ⟨receiver, parameters, result⟩ := inside desc
    simp only [type?_moved grown receiver tabled.receiver, type?_moved grown result tabled.result,
      parameterTypes_tabled grown parameters tabled.parameters,
      methodDescriptor?_eq names types final]
    rfl

theorem function_tabled {f f' : Payload.Function} (grown : types <+: final)
    (inside : f.TypesInside ((own? f.typeTable).getD types)) (tabled : f.Tabled final f') :
    (Scope.mk names final).function f' = (Scope.mk names types).function f := by
  have before := within_eq names types f.typeTable
  unfold Payload.Function.Tabled at tabled
  cases own : own? f.typeTable with
  | none =>
    rw [own] at before inside tabled
    obtain ⟨table, tabled⟩ := tabled
    have after : (Scope.mk names final).within f'.typeTable = ⟨names, final⟩ := by
      rw [table, within_eq, own]
      rfl
    exact function_tabledIn before after grown inside tabled
  | some inner =>
    rw [own] at before inside tabled
    obtain ⟨ended, grown, table, tabled⟩ := tabled
    -- the table still counts for the function, as it was not empty and has only grown
    have inner_ne : inner ≠ [] := (own?_eq_some_iff.mp own).2
    have own_ended : own? f'.typeTable = some ended := by
      refine own?_eq_some_iff.mpr ⟨table, fun empty => inner_ne ?_⟩
      exact List.prefix_nil.mp (empty ▸ grown)
    have after : (Scope.mk names final).within f'.typeTable = ⟨names, ended⟩ := by
      rw [within_eq, own_ended]
      rfl
    exact function_tabledIn before after grown inside tabled

/-- Ids in place of supertypes mean the same, unless there were ids already that the supertypes
won over. -/
theorem supertypes_tabled {c c' : Payload.Class} (single : c.supertypes = [] ∨ c.supertypeIds = [])
    (inside : c.TypesInside) (grown : typesOf c.typeTable <+: final)
    (tabled : c.TabledIn final c') :
    (Scope.mk names final).supertypes c' = (Scope.of names c.typeTable).supertypes c := by
  obtain ⟨ids, with_ids, points⟩ := tabled.supertypes
  have by_ids : (Scope.mk names final).supertypes c' = (c.supertypeIds ++ ids).mapM
      fun id => (Scope.mk names final).typeAt id >>= (Scope.mk names final).classifier := by
    simp only [supertypes, tabled.bare, with_ids, List.isEmpty_nil, if_true]
  rw [by_ids]
  unfold supertypes
  -- the ids of `c` count just if it has no supertypes in place
  cases inline : c.supertypes with
  | nil =>
    rw [inline] at points
    cases points
    rw [List.append_nil]
    have same : List.Forall₂ Eq c.supertypeIds c.supertypeIds :=
      List.forall₂_same.mpr fun _ _ => rfl
    refine mapM_related (inside.supertypes inline) same fun id _ inside same => ?_
    subst same
    rw [typeAt_inside grown inside]
    rfl
  | cons type rest =>
    have alone : c.supertypeIds = [] := single.resolve_left (by simp [inline])
    rw [inline] at points
    rw [alone, List.nil_append]
    refine mapM_related (fun _ _ => trivial) points fun type id _ points => ?_
    rw [typeAt_points points]
    rfl

/-- A class means the same with its types in place and with its types in tables, to its last error:
the ids that count without a type in place are inside their table, and there are no supertypes of
both kinds. -/
theorem classInfo_tabled (names : StringTable) {c c' : Payload.Class}
    (single : c.supertypes = [] ∨ c.supertypeIds = []) (inside : c.TypesInside)
    (tabled : c.Tabled c') :
    (Scope.of names c'.typeTable).classInfo c' = (Scope.of names c.typeTable).classInfo c := by
  obtain ⟨grown, tabled⟩ := tabled
  have supertypes : (Scope.of names c'.typeTable).supertypes c' =
      (Scope.of names c.typeTable).supertypes c :=
    supertypes_tabled single inside grown tabled
  have constructors : c'.constructors.mapM (Scope.of names c'.typeTable).constructor =
      c.constructors.mapM (Scope.of names c.typeTable).constructor :=
    mapM_related inside.constructors tabled.constructors fun _ _ => constructor_tabled grown
  have functions : c'.functions.mapM (Scope.of names c'.typeTable).function =
      c.functions.mapM (Scope.of names c.typeTable).function :=
    mapM_related inside.functions tabled.functions fun _ _ => function_tabled grown
  have properties : c'.properties.mapM (Scope.of names c'.typeTable).property =
      c.properties.mapM (Scope.of names c.typeTable).property :=
    mapM_related inside.properties tabled.properties fun _ _ => property_tabled grown
  unfold classInfo members
  rw [supertypes, constructors, functions, properties, tabled.rest]
  rfl

/-- A class with types in place, with ids, and with a function that has a table of its own. -/
def mixed : Payload.Class where
  name := some 0
  supertypeIds := [0]
  constructors := [{ parameters :=
    [{ name := some 1, type := some { className := some 2 } },
     { name := some 1, typeId := some 0 }] }]
  functions :=
    [{ name := some 1, receiverTypeId := some 0, returnType := some { className := some 2 },
       typeTable := some ⟨[{ className := some 3 }]⟩ },
     { name := some 1, returnTypeId := some 0,
       parameters := [{ name := some 1, type := some { className := some 3 } }] }]
  properties :=
    [{ name := some 1, returnType := some { className := some 2 },
       signature := some { field := some {} } }]
  typeTable := some ⟨[{ className := some 0 }]⟩

def words : StringTable := ⟨["a/B".toList, "f".toList, "c/D".toList, "kotlin/Int".toList], [], []⟩

theorem classInfo_tabled_mixed :
    mixed.tabled ≠ mixed ∧
      (Scope.of words mixed.tabled.typeTable).classInfo mixed.tabled =
        (Scope.of words mixed.typeTable).classInfo mixed ∧
      ((Scope.of words mixed.typeTable).classInfo mixed).isOk := by
  have inside : mixed.TypesInside :=
    ⟨fun _ => List.forall_mem_singleton.mpr (by decide), by decide, by decide, by decide⟩
  have tabled : mixed.Tabled mixed.tabled := mixed.tabled_tabled (by decide) (by decide)
  exact ⟨by decide, classInfo_tabled words (.inl rfl) inside tabled, by decide +kernel⟩

end Scope

end SmaliReport
