import SmaliReport.Proofs.Description.TypeTables

/-!
When a function can be read, and when it has a signature. The types of a function are found before
any class name is looked up, and class names are looked up in order as long as they are needed: for
the result, then for the parameters up to the first without one. A descriptor of its own makes all of
them needless.
-/

namespace SmaliReport

section Success

variable {ε α β : Type}

theorem bind_ok_iff {first : Except ε α} {next : α → Except ε β} {b : β} :
    first >>= next = .ok b ↔ ∃ a, first = .ok a ∧ next a = .ok b := by
  cases first <;> simp [bind, Except.bind]

theorem map_ok_iff {first : Except ε α} {f : α → β} {b : β} :
    first.map f = .ok b ↔ ∃ a, first = .ok a ∧ f a = b := by
  cases first <;> simp [Except.map]

theorem mapM_ok_iff {read : α → Except ε β} {as : List α} {bs : List β} :
    as.mapM read = .ok bs ↔ List.Forall₂ (fun a b => read a = .ok b) as bs := by
  induction as generalizing bs with
  | nil =>
    rw [List.mapM_nil, List.forall₂_nil_left_iff]
    exact ⟨fun ok => (Except.ok.inj ok).symm, fun empty => congrArg Except.ok empty.symm⟩
  | cons a rest ih =>
    rw [List.mapM_cons, bind_ok_iff, List.forall₂_cons_left_iff]
    constructor
    · rintro ⟨b, head, ok⟩
      obtain ⟨bs', tail, ok⟩ := bind_ok_iff.mp ok
      exact ⟨b, bs', head, ih.mp tail, (Except.ok.inj ok).symm⟩
    · rintro ⟨b, bs', head, tail, rfl⟩
      exact ⟨b, head, bind_ok_iff.mpr ⟨bs', ih.mpr tail, rfl⟩⟩

theorem exists_mapM_ok_iff {read : α → Except ε β} {as : List α} :
    (∃ bs, as.mapM read = .ok bs) ↔ ∀ a ∈ as, ∃ b, read a = .ok b := by
  simp only [mapM_ok_iff]
  induction as with
  | nil => exact ⟨fun _ => nofun, fun _ => ⟨[], .nil⟩⟩
  | cons a rest ih =>
    rw [List.forall_mem_cons, ← ih]
    constructor
    · rintro ⟨_, related⟩
      cases related with
      | cons head tail => exact ⟨⟨_, head⟩, _, tail⟩
    · rintro ⟨⟨b, head⟩, bs, tail⟩
      exact ⟨b :: bs, .cons head tail⟩

end Success

namespace Payload

/-- The type of a place: the one that stands there, or else the one at its id. -/
def typeIn (types : List TypeRef) (inline : Option TypeRef) (id : Option Int32) : Option TypeRef :=
  inline <|> (id.bind StringTable.index?).bind (types[·]?)

/-- A type is plain if it has a class name. -/
def Plain (type : Option TypeRef) : Prop := (type.bind (·.className)).isSome

instance : DecidablePred Plain := fun _ => inferInstanceAs (Decidable (_ = true))

def ClassNamed (valid : Int32 → Prop) (type : Option TypeRef) : Prop :=
  ∀ name ∈ type.bind (·.className), valid name

namespace Function

def resultType (types : List TypeRef) (f : Function) : Option TypeRef :=
  typeIn types f.returnType f.returnTypeId

/-- The types of the parameters of the method: a receiver is the first one. -/
def parameterTypes (types : List TypeRef) (f : Function) : List (Option TypeRef) :=
  (typeIn types f.receiverType f.receiverTypeId).toList.map some ++
    f.parameters.map fun p => typeIn types p.type p.typeId

/-- The types a function sees: those of its own table, or else the outer ones. -/
def typesInScope (outer : List TypeRef) (f : Function) : List TypeRef :=
  (own? f.typeTable).getD outer

structure Named (valid : Int32 → Prop) (f : Function) : Prop where
  name : ∃ index ∈ f.name, valid index
  methodName : ∀ index ∈ f.signature.bind (·.name), valid index
  parameters : ∀ p ∈ f.parameters, ∃ index ∈ p.name, valid index

/-- What the descriptor needs that is made of the types of a function. -/
structure Typed (valid : Int32 → Prop) (types : List TypeRef) (f : Function) : Prop where
  receiver : TypeInside types f.receiverType f.receiverTypeId
  parameters : ∀ p ∈ f.parameters, TypeInside types p.type p.typeId
  result : TypeInside types f.returnType f.returnTypeId
  resultName : ClassNamed valid (f.resultType types)
  parameterNames : Plain (f.resultType types) →
    ∀ type ∈ (f.parameterTypes types).takeWhile Plain, ClassNamed valid type

/-- All that the reading of a function looks up is there. -/
structure Readable (valid : Int32 → Prop) (outer : List TypeRef) (f : Function) : Prop
    extends f.Named valid where
  desc : ∀ index ∈ f.signature.bind (·.desc), valid index
  computed : f.signature.bind (·.desc) = none → f.Typed valid (f.typesInScope outer)

end Function

end Payload

namespace Scope

open Payload (TypeRef Parameter typeIn Plain ClassNamed TypeInside)

section Types

variable (scope : Scope)

theorem typeAt_ok_iff {id : Int32} {type : TypeRef} :
    scope.typeAt id = .ok type ↔ (StringTable.index? id).bind (scope.types[·]?) = some type := by
  unfold typeAt
  split
  · rename_i found
    rw [found, Option.some.injEq, Except.ok.injEq]
  · rename_i missing
    rw [missing]
    exact ⟨nofun, nofun⟩

theorem exists_typeAt {id : Int32} (inside : Payload.Inside scope.types id) :
    ∃ type, scope.typeAt id = .ok type := by
  obtain ⟨i, at_i⟩ := Int.eq_ofNat_of_zero_le inside.1
  have below : i < scope.types.length := by
    have := inside.2
    omega
  refine ⟨scope.types[i], (scope.typeAt_ok_iff).mpr ?_⟩
  rw [StringTable.index?_eq_some_iff.mpr at_i, Option.bind_some, List.getElem?_eq_getElem below]

theorem inside_of_typeAt {id : Int32} {type : TypeRef} (found : scope.typeAt id = .ok type) :
    Payload.Inside scope.types id := by
  obtain ⟨i, index, at_i⟩ := Option.bind_eq_some_iff.mp (scope.typeAt_ok_iff.mp found)
  have value := StringTable.index?_eq_some_iff.mp index
  obtain ⟨below, _⟩ := List.getElem?_eq_some_iff.mp at_i
  exact ⟨by omega, by omega⟩

/-- A type is found just if it stands in place or its id is inside the table. -/
theorem type?_ok_iff {inline : Option TypeRef} {id : Option Int32} {type : Option TypeRef} :
    scope.type? inline id = .ok type ↔
      TypeInside scope.types inline id ∧ typeIn scope.types inline id = type := by
  match inline, id with
  | some given, _ => simp [type?, TypeInside, typeIn]
  | none, none => simp [type?, TypeInside, typeIn]
  | none, some id =>
    have placed : typeIn scope.types none (some id) =
        (StringTable.index? id).bind (scope.types[·]?) := rfl
    rw [type?, map_ok_iff, placed]
    constructor
    · rintro ⟨found, ok, rfl⟩
      exact ⟨scope.inside_of_typeAt ok, scope.typeAt_ok_iff.mp ok⟩
    · rintro ⟨inside, rfl⟩
      obtain ⟨found, ok⟩ := scope.exists_typeAt inside
      exact ⟨found, ok, (scope.typeAt_ok_iff.mp ok).symm⟩

theorem parameterTypes_ok_iff {parameters : List Parameter} {types : List (Option TypeRef)} :
    scope.parameterTypes parameters = .ok types ↔
      (∀ p ∈ parameters, TypeInside scope.types p.type p.typeId) ∧
        parameters.map (fun p => typeIn scope.types p.type p.typeId) = types := by
  rw [parameterTypes, mapM_ok_iff]
  simp only [type?_ok_iff]
  rw [List.forall₂_and_left, ← List.forall₂_map_left_iff (R := Eq), List.forall₂_eq_eq_eq]

end Types

section Descriptors

def Names (scope : Scope) (index : Int32) : Prop := ∃ t, scope.names.string index = .ok t

variable (scope : Scope)

theorem descriptor_of_not_plain {type : Option TypeRef} (other : ¬Plain type) :
    scope.descriptor? type = .ok none := by
  have unnamed : type.bind (·.className) = none := Option.not_isSome_iff_eq_none.mp other
  simp only [descriptor?, unnamed]

theorem descriptor_of_name {type : Option TypeRef} {name : Int32}
    (named : type.bind (·.className) = some name) :
    scope.descriptor? type =
      (scope.names.string name).map fun id => some (Descriptor.ofClassId id) := by
  simp only [descriptor?, named]

theorem descriptor_plain {type : Option TypeRef} (plain : Plain type)
    (named : ClassNamed scope.Names type) :
    ∃ desc, scope.descriptor? type = .ok (some desc) := by
  obtain ⟨name, own⟩ := Option.isSome_iff_exists.mp plain
  obtain ⟨id, found⟩ := named name own
  exact ⟨_, by rw [scope.descriptor_of_name own, found]; rfl⟩

theorem classNamed_of_descriptor {type : Option TypeRef} {desc : Option Text}
    (found : scope.descriptor? type = .ok desc) : ClassNamed scope.Names type := by
  intro name own
  rw [scope.descriptor_of_name own, map_ok_iff] at found
  exact ⟨found.choose, found.choose_spec.1⟩

theorem descriptor_none_iff {type : Option TypeRef} {desc : Option Text}
    (found : scope.descriptor? type = .ok desc) : desc = none ↔ ¬Plain type := by
  by_cases plain : Plain type
  · obtain ⟨text, read⟩ := scope.descriptor_plain plain (scope.classNamed_of_descriptor found)
    cases found.symm.trans read
    simp [plain]
  · cases found.symm.trans (scope.descriptor_of_not_plain plain)
    simp [plain]

theorem plain_of_descriptor {type : Option TypeRef} {desc : Text}
    (found : scope.descriptor? type = .ok (some desc)) : Plain type := by
  by_contra other
  cases (scope.descriptor_none_iff found).mpr other

theorem exists_descriptor_iff {type : Option TypeRef} :
    (∃ desc, scope.descriptor? type = .ok desc) ↔ ClassNamed scope.Names type := by
  constructor
  · rintro ⟨desc, found⟩
    exact scope.classNamed_of_descriptor found
  · intro named
    by_cases plain : Plain type
    · obtain ⟨text, read⟩ := scope.descriptor_plain plain named
      exact ⟨some text, read⟩
    · exact ⟨none, scope.descriptor_of_not_plain plain⟩

theorem descriptors_stop {type : Option TypeRef} (rest : List (Option TypeRef))
    (other : ¬Plain type) : scope.descriptors? (type :: rest) = .ok none := by
  rw [descriptors?, scope.descriptor_of_not_plain other]
  rfl

theorem descriptors_go_on {type : Option TypeRef} (rest : List (Option TypeRef)) {desc : Text}
    (found : scope.descriptor? type = .ok (some desc)) :
    scope.descriptors? (type :: rest) =
      (scope.descriptors? rest).map (·.map (desc ++ ·)) := by
  rw [descriptors?, found]
  cases scope.descriptors? rest with
  | error e => rfl
  | ok others => cases others <;> rfl

theorem descriptors_cons_iff {type : Option TypeRef} {rest : List (Option TypeRef)}
    {descs : Option Text} (plain : Plain type) :
    scope.descriptors? (type :: rest) = .ok descs ↔
      ∃ desc others, scope.descriptor? type = .ok (some desc) ∧
        scope.descriptors? rest = .ok others ∧ others.map (desc ++ ·) = descs := by
  constructor
  · intro read
    obtain ⟨found, ok, _⟩ := bind_ok_iff.mp read
    cases found with
    | none => exact absurd plain ((scope.descriptor_none_iff ok).mp rfl)
    | some desc =>
      rw [scope.descriptors_go_on rest ok, map_ok_iff] at read
      obtain ⟨others, read, joined⟩ := read
      exact ⟨desc, others, ok, read, joined⟩
  · rintro ⟨desc, others, ok, read, joined⟩
    rw [scope.descriptors_go_on rest ok, map_ok_iff]
    exact ⟨others, read, joined⟩

/-- Class names are looked up as long as the types are plain, and none behind them. -/
theorem exists_descriptors_iff {types : List (Option TypeRef)} :
    (∃ descs, scope.descriptors? types = .ok descs) ↔
      ∀ type ∈ types.takeWhile Plain, ClassNamed scope.Names type := by
  induction types with
  | nil => exact ⟨fun _ => nofun, fun _ => ⟨_, rfl⟩⟩
  | cons type rest ih =>
    -- A type that is not plain ends the reading and the prefix alike.
    by_cases plain : Plain type
    · rw [List.takeWhile_cons_of_pos (by simpa using plain), List.forall_mem_cons, ← ih]
      simp only [scope.descriptors_cons_iff plain]
      constructor
      · rintro ⟨_, desc, others, ok, read, _⟩
        exact ⟨scope.classNamed_of_descriptor ok, others, read⟩
      · rintro ⟨named, others, read⟩
        obtain ⟨desc, ok⟩ := scope.descriptor_plain plain named
        exact ⟨_, desc, others, ok, read, rfl⟩
    · rw [List.takeWhile_cons_of_neg (by simpa using plain)]
      exact ⟨fun _ => nofun, fun _ => ⟨none, scope.descriptors_stop rest plain⟩⟩

theorem descriptors_none_iff {types : List (Option TypeRef)} {descs : Option Text}
    (read : scope.descriptors? types = .ok descs) :
    descs = none ↔ ∃ type ∈ types, ¬Plain type := by
  induction types generalizing descs with
  | nil =>
    cases read
    simp
  | cons type rest ih =>
    by_cases plain : Plain type
    · obtain ⟨desc, others, _, read_rest, rfl⟩ := (scope.descriptors_cons_iff plain).mp read
      rw [Option.map_eq_none_iff, ih read_rest]
      simp [plain]
    · cases read.symm.trans (scope.descriptors_stop rest plain)
      simp [plain]

theorem methodDescriptor_ok_iff {types : List (Option TypeRef)} {result desc : Option Text} :
    scope.methodDescriptor? types result = .ok desc ↔
      result = none ∧ desc = none ∨ ∃ value descs, result = some value ∧
        scope.descriptors? types = .ok descs ∧
        descs.map (fun inner => '(' :: inner ++ ')' :: value) = desc := by
  cases result with
  | none => simp [methodDescriptor?, eq_comm]
  | some value =>
    simp only [methodDescriptor?, bind_ok_iff, reduceCtorEq, false_and, false_or]
    constructor
    · rintro ⟨descs, read, ended⟩
      cases descs with
      | none => exact ⟨value, none, rfl, read, Except.ok.inj ended⟩
      | some inner => exact ⟨value, some inner, rfl, read, Except.ok.inj ended⟩
    · rintro ⟨_, descs, same, read, rfl⟩
      cases same
      refine ⟨descs, read, ?_⟩
      cases descs <;> rfl

end Descriptors

section Computed

variable (scope : Scope)

/-- The descriptor of a function by its types. -/
def computed (f : Payload.Function) : Except DecodeError (Option Text) := do
  let receiver ← scope.type? f.receiverType f.receiverTypeId
  let parameters ← scope.parameterTypes f.parameters
  let result ← scope.type? f.returnType f.returnTypeId
  let result ← scope.descriptor? result
  scope.methodDescriptor? (receiver.toList.map some ++ parameters) result

theorem computed_ok_iff {f : Payload.Function} {desc : Option Text} :
    scope.computed f = .ok desc ↔
      TypeInside scope.types f.receiverType f.receiverTypeId ∧
      (∀ p ∈ f.parameters, TypeInside scope.types p.type p.typeId) ∧
      TypeInside scope.types f.returnType f.returnTypeId ∧
      ∃ result, scope.descriptor? (f.resultType scope.types) = .ok result ∧
        scope.methodDescriptor? (f.parameterTypes scope.types) result = .ok desc := by
  simp only [computed, bind_ok_iff, type?_ok_iff, parameterTypes_ok_iff]
  constructor
  · rintro ⟨_, ⟨receiver, rfl⟩, _, ⟨parameters, rfl⟩, _, ⟨result, rfl⟩, desc, read⟩
    exact ⟨receiver, parameters, result, desc, read⟩
  · rintro ⟨receiver, parameters, result, desc, read⟩
    exact ⟨_, ⟨receiver, rfl⟩, _, ⟨parameters, rfl⟩, _, ⟨result, rfl⟩, desc, read⟩

theorem exists_computed_iff {f : Payload.Function} :
    (∃ desc, scope.computed f = .ok desc) ↔ f.Typed scope.Names scope.types := by
  simp only [computed_ok_iff, methodDescriptor_ok_iff]
  constructor
  · rintro ⟨desc, receiver, parameters, result, found, ok, ended⟩
    refine ⟨receiver, parameters, result, scope.classNamed_of_descriptor ok, fun plain => ?_⟩
    rcases ended with ⟨missing, _⟩ | ⟨_, descs, _, read, _⟩
    -- Without a descriptor of the result no parameter was looked up.
    · exact absurd plain ((scope.descriptor_none_iff ok).mp missing)
    · exact scope.exists_descriptors_iff.mp ⟨descs, read⟩
  · rintro ⟨receiver, parameters, result, resultName, parameterNames⟩
    obtain ⟨found, ok⟩ := scope.exists_descriptor_iff.mpr resultName
    cases found with
    | none => exact ⟨none, receiver, parameters, result, none, ok, .inl ⟨rfl, rfl⟩⟩
    | some value =>
      have plain := scope.plain_of_descriptor ok
      obtain ⟨descs, read⟩ := scope.exists_descriptors_iff.mpr (parameterNames plain)
      exact ⟨_, receiver, parameters, result, some value, ok, .inr ⟨value, descs, rfl, read, rfl⟩⟩

/-- There is no descriptor just if a type of the method is not plain. -/
theorem computed_none_iff {f : Payload.Function} {desc : Option Text}
    (read : scope.computed f = .ok desc) :
    desc = none ↔
      ∃ type ∈ f.resultType scope.types :: f.parameterTypes scope.types, ¬Plain type := by
  obtain ⟨_, _, _, found, ok, ended⟩ := scope.computed_ok_iff.mp read
  rcases scope.methodDescriptor_ok_iff.mp ended with
    ⟨missing, rfl⟩ | ⟨value, descs, rfl, names, rfl⟩
  · have other := (scope.descriptor_none_iff ok).mp missing
    exact ⟨fun _ => ⟨_, List.mem_cons_self, other⟩, fun _ => rfl⟩
  · have plain := scope.plain_of_descriptor ok
    rw [Option.map_eq_none_iff, scope.descriptors_none_iff names]
    simp [plain]

end Computed

section Functions

variable {outer scope : Scope} {f : Payload.Function}

theorem required_ok_iff {field : String} {index : Option Int32} {t : Text} :
    required field index >>= scope.names.string = .ok t ↔
      ∃ i ∈ index, scope.names.string i = .ok t := by
  cases index with
  | none => exact ⟨nofun, nofun⟩
  | some i => exact ⟨fun ok => ⟨i, rfl, ok⟩, fun ⟨_, same, ok⟩ => Option.some.inj same ▸ ok⟩

theorem exists_stringOr_iff {default : Text} {index : Option Int32} :
    (∃ t, scope.stringOr default index = .ok t) ↔ ∀ i ∈ index, scope.Names i := by
  cases index with
  | none => exact ⟨fun _ => nofun, fun _ => ⟨default, rfl⟩⟩
  | some i => exact ⟨fun found _ same => Option.some.inj same ▸ found, fun each => each i rfl⟩

theorem argumentNames_ok_iff {parameters : List Parameter} {arguments : List Text} :
    scope.argumentNames parameters = .ok arguments ↔ List.Forall₂
      (fun p argument => ∃ index ∈ p.name, scope.names.string index = .ok argument)
        parameters arguments := by
  simp only [argumentNames, mapM_ok_iff, required_ok_iff]

theorem exists_argumentNames_iff {parameters : List Parameter} :
    (∃ arguments, scope.argumentNames parameters = .ok arguments) ↔
      ∀ p ∈ parameters, ∃ index ∈ p.name, scope.Names index := by
  simp only [argumentNames, exists_mapM_ok_iff, required_ok_iff]
  refine forall₂_congr fun p _ => ?_
  constructor
  · rintro ⟨t, index, own, found⟩
    exact ⟨index, own, t, found⟩
  · rintro ⟨index, own, t, found⟩
    exact ⟨t, index, own, found⟩

/-- The descriptor of a function: its own, or else the one by its types. -/
def methodDesc? (scope : Scope) (f : Payload.Function) : Except DecodeError (Option Text) :=
  match f.signature.bind (·.desc) with
  | some index => (scope.names.string index).map some
  | none => scope.computed f

theorem exists_methodDesc_iff :
    (∃ desc, scope.methodDesc? f = .ok desc) ↔
      (∀ index ∈ f.signature.bind (·.desc), scope.Names index) ∧
        (f.signature.bind (·.desc) = none → f.Typed scope.Names scope.types) := by
  unfold methodDesc?
  cases f.signature.bind (·.desc) with
  | some index =>
    simp only [map_ok_iff]
    constructor
    · rintro ⟨_, t, found, _⟩
      exact ⟨fun _ same => Option.some.inj same ▸ ⟨t, found⟩, nofun⟩
    · rintro ⟨each, _⟩
      obtain ⟨t, found⟩ := each index rfl
      exact ⟨some t, t, found, rfl⟩
  | none => simp [scope.exists_computed_iff]

theorem methodDesc_none_iff {desc : Option Text} (read : scope.methodDesc? f = .ok desc) :
    desc = none ↔ f.signature.bind (·.desc) = none ∧
      ∃ type ∈ f.resultType scope.types :: f.parameterTypes scope.types, ¬Plain type := by
  unfold methodDesc? at read
  cases own : f.signature.bind (·.desc) with
  | some index =>
    rw [own] at read
    obtain ⟨t, _, rfl⟩ := map_ok_iff.mp read
    simp
  | none =>
    rw [own] at read
    rw [scope.computed_none_iff read]
    simp

theorem function_bind (within : outer.within f.typeTable = scope) :
    outer.function f =
      required "Function.name" f.name >>= scope.names.string >>= fun name =>
        scope.stringOr name (f.signature.bind (·.name)) >>= fun methodName =>
          scope.methodDesc? f >>= fun desc =>
            scope.argumentNames f.parameters >>= fun arguments =>
              .ok ⟨name, desc.map (⟨methodName, ·⟩), arguments⟩ := by
  subst within
  unfold function methodDesc?
  cases f.signature.bind (·.desc) with
  | some index => rfl
  | none => simp only [computed, bind_assoc]

/-- A function is read from its name, the name and the descriptor of its method, and the names of
its parameters. -/
theorem function_ok_iff (within : outer.within f.typeTable = scope) {g : Function} :
    outer.function f = .ok g ↔
      (∃ index ∈ f.name, scope.names.string index = .ok g.name) ∧
      (∃ methodName desc, scope.stringOr g.name (f.signature.bind (·.name)) = .ok methodName ∧
        scope.methodDesc? f = .ok desc ∧ desc.map (⟨methodName, ·⟩) = g.signature) ∧
      List.Forall₂ (fun p argument => ∃ index ∈ p.name, scope.names.string index = .ok argument)
        f.parameters g.arguments := by
  rw [function_bind within]
  constructor
  · intro ok
    obtain ⟨name, named, ok⟩ := bind_ok_iff.mp ok
    obtain ⟨methodName, method, ok⟩ := bind_ok_iff.mp ok
    obtain ⟨desc, read, ok⟩ := bind_ok_iff.mp ok
    obtain ⟨arguments, known, ok⟩ := bind_ok_iff.mp ok
    cases ok
    exact ⟨required_ok_iff.mp named, ⟨methodName, desc, method, read, rfl⟩,
      argumentNames_ok_iff.mp known⟩
  · rintro ⟨named, ⟨methodName, desc, method, read, signature⟩, known⟩
    refine bind_ok_iff.mpr ⟨g.name, required_ok_iff.mpr named, ?_⟩
    refine bind_ok_iff.mpr ⟨methodName, method, ?_⟩
    refine bind_ok_iff.mpr ⟨desc, read, ?_⟩
    refine bind_ok_iff.mpr ⟨g.arguments, argumentNames_ok_iff.mpr known, ?_⟩
    rw [signature]

theorem exists_function_iff (within : outer.within f.typeTable = scope) :
    (∃ g, outer.function f = .ok g) ↔
      f.Named scope.Names ∧ ∃ desc, scope.methodDesc? f = .ok desc := by
  simp only [function_ok_iff within]
  constructor
  · rintro ⟨g, ⟨index, own, named⟩, ⟨methodName, desc, method, read, _⟩, known⟩
    refine ⟨⟨⟨index, own, g.name, named⟩, exists_stringOr_iff.mp ⟨methodName, method⟩, ?_⟩,
      desc, read⟩
    exact exists_argumentNames_iff.mp ⟨g.arguments, argumentNames_ok_iff.mpr known⟩
  · rintro ⟨⟨⟨index, own, name, named⟩, method, parameters⟩, desc, read⟩
    obtain ⟨methodName, method⟩ : ∃ t, scope.stringOr name _ = .ok t :=
      exists_stringOr_iff.mpr method
    obtain ⟨arguments, known⟩ := exists_argumentNames_iff.mpr parameters
    exact ⟨⟨name, desc.map (⟨methodName, ·⟩), arguments⟩, ⟨index, own, named⟩,
      ⟨methodName, desc, method, read, rfl⟩, argumentNames_ok_iff.mp known⟩

end Functions

section Signatures

def IndexOf (texts : List Text) (index : Int32) : Prop :=
  0 ≤ index.toInt ∧ index.toInt < texts.length

instance (texts : List Text) (index : Int32) : Decidable (IndexOf texts index) :=
  inferInstanceAs (Decidable (_ ∧ _))

/-- A function over a string table is read just if everything it needs is there, and has no
signature just if it states no descriptor and a type of the method is not plain. -/
theorem function_readable {types : Payload.StringTableTypes} {texts : List Text}
    {names : StringTable} (made : StringTable.of types texts = .ok names) (outer : List TypeRef)
    (f : Payload.Function) :
    ((∃ g, (Scope.mk names outer).function f = .ok g) ↔ f.Readable (IndexOf texts) outer) ∧
    ∀ g, (Scope.mk names outer).function f = .ok g →
      List.Forall₂ (fun p argument => ∃ index ∈ p.name, names.string index = .ok argument)
        f.parameters g.arguments ∧
      (g.signature = none ↔ f.signature.bind (·.desc) = none ∧
        ∃ type ∈ f.resultType (f.typesInScope outer) :: f.parameterTypes (f.typesInScope outer),
          ¬Plain type) := by
  have within : (Scope.mk names outer).within f.typeTable = ⟨names, f.typesInScope outer⟩ :=
    within_eq names outer f.typeTable
  have valid : (Scope.mk names (f.typesInScope outer)).Names = IndexOf texts := by
    funext index
    exact propext ((StringTable.answers_of made).ok_iff index)
  constructor
  · rw [exists_function_iff within, exists_methodDesc_iff, valid]
    constructor
    · rintro ⟨named, desc, computed⟩
      exact ⟨named, desc, computed⟩
    · rintro ⟨named, desc, computed⟩
      exact ⟨named, desc, computed⟩
  · intro g read
    obtain ⟨_, ⟨methodName, desc, _, ended, signature⟩, known⟩ := (function_ok_iff within).mp read
    refine ⟨known, ?_⟩
    rw [← signature, Option.map_eq_none_iff]
    exact methodDesc_none_iff ended

def labels : List Text := ["a/B".toList, "f".toList, "p".toList]

/-- A function with a parameter of no class, and behind that one of a class without a name. -/
def hidden (result : Int32) : Payload.Function where
  name := some 1
  returnType := some { className := some result }
  parameters := [{ name := some 2, type := some { typeParameter := some 0 } },
    { name := some 2, type := some { className := some 9 } }]

theorem function_readable_hidden :
    ∃ names, StringTable.of {} labels = .ok names ∧
      (∃ g, (Scope.mk names []).function (hidden 0) = .ok g ∧ g.signature = none) ∧
      ¬∃ g, (Scope.mk names []).function (hidden 9) = .ok g := by
  have made : StringTable.of {} labels = .ok ⟨labels, [], []⟩ := rfl
  refine ⟨_, made, ?_, ?_⟩
  · have function_name : IndexOf labels 1 := by decide
    have parameter_name : IndexOf labels 2 := by decide
    have readable : (hidden 0).Readable (IndexOf labels) [] := by
      refine ⟨⟨⟨1, rfl, function_name⟩, ?_, ?_⟩, ?_, fun _ => ⟨trivial, ?_, trivial, ?_, ?_⟩⟩
      · simp [hidden]
      · simp [hidden, parameter_name]
      · simp [hidden]
      · simp [hidden, TypeInside]
      · exact fun _ same => Option.some.inj same ▸ by decide
      · simp [hidden, Payload.Function.parameterTypes, typeIn, Plain]
    obtain ⟨read, known⟩ := function_readable made [] (hidden 0)
    obtain ⟨g, ok⟩ := read.mpr readable
    have other : ¬Plain (some { typeParameter := some 0 }) := by decide
    exact ⟨g, ok, (known g ok).2.mpr ⟨rfl, _, .tail _ (.head _), other⟩⟩
  · intro ok
    have readable := (function_readable made [] (hidden 9)).1.mp ok
    have named := (readable.computed rfl).resultName 9 rfl
    exact absurd named (by decide)

end Signatures

end Scope

end SmaliReport
