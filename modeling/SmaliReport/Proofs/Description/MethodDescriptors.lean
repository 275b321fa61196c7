import SmaliReport.Proofs.Description.Functions
import SmaliReport.Proofs.Names.Descriptors

/-!
The descriptors made of the types of a function. Where every type has a class name, and no class id a
semicolon, the descriptor can be read back in one way only, as the descriptors of the classes in their
order.
-/

namespace SmaliReport.Scope

open Payload (TypeRef typeIn TypeInside)
open Descriptor (ofClassId Method)

/-- The type has a class name, with this class id. -/
def ClassOf (scope : Scope) (type : Option TypeRef) (id : Text) : Prop :=
  ∃ name ∈ type.bind (·.className), scope.names.string name = .ok id

/-- The class id of the receiver, or none without receiver. -/
def ReceiverOf (scope : Scope) (f : Payload.Function) : Option Text → Prop
  | some id => scope.ClassOf (typeIn scope.types f.receiverType f.receiverTypeId) id
  | none => f.receiverType = none ∧ f.receiverTypeId = none

def parameterDescs (receiver : Option Text) (parameters : List Text) : List Text :=
  (receiver.toList ++ parameters).map ofClassId

structure Classes (scope : Scope) (f : Payload.Function) (receiver : Option Text)
    (parameters : List Text) (result : Text) : Prop where
  receiver : scope.ReceiverOf f receiver
  parameters : List.Forall₂ (fun p id => scope.ClassOf (typeIn scope.types p.type p.typeId) id)
    f.parameters parameters
  result : scope.ClassOf (f.resultType scope.types) result

variable {scope : Scope}

theorem ClassOf.descriptor {type : Option TypeRef} {id : Text} (known : scope.ClassOf type id) :
    scope.descriptor? type = .ok (some (ofClassId id)) := by
  obtain ⟨name, own, found⟩ := known
  rw [scope.descriptor_of_name own, found]
  rfl

theorem ClassOf.inside {inline : Option TypeRef} {id : Option Int32} {classId : Text}
    (known : scope.ClassOf (typeIn scope.types inline id) classId) :
    TypeInside scope.types inline id := by
  obtain ⟨name, own, _⟩ := known
  obtain ⟨type, there, _⟩ := Option.bind_eq_some_iff.mp own
  match inline, id, there with
  | some _, _, _ => exact trivial
  | none, some id, there => exact scope.inside_of_typeAt (scope.typeAt_ok_iff.mpr there)

theorem descriptors_named {types : List (Option TypeRef)} {ids : List Text}
    (named : List.Forall₂ scope.ClassOf types ids) :
    scope.descriptors? types = .ok (some (ids.map ofClassId).flatten) := by
  induction named with
  | nil => rfl
  | cons known _ ih =>
    rw [scope.descriptors_go_on _ known.descriptor, ih]
    rfl

section Classes

variable {f : Payload.Function} {receiver : Option Text} {parameters : List Text} {result : Text}

theorem ReceiverOf.inside (known : scope.ReceiverOf f receiver) :
    TypeInside scope.types f.receiverType f.receiverTypeId := by
  cases receiver with
  | some id => exact ClassOf.inside known
  | none =>
    rw [known.1, known.2]
    exact trivial

theorem ReceiverOf.related (known : scope.ReceiverOf f receiver) :
    List.Forall₂ scope.ClassOf
      ((typeIn scope.types f.receiverType f.receiverTypeId).toList.map some) receiver.toList := by
  cases receiver with
  | some id =>
    obtain ⟨name, own, found⟩ := known
    obtain ⟨type, there, class_name⟩ := Option.bind_eq_some_iff.mp own
    rw [there]
    exact .cons ⟨name, class_name, found⟩ .nil
  | none =>
    rw [known.1, known.2]
    exact .nil

theorem Classes.inside (classes : scope.Classes f receiver parameters result) :
    ∀ p ∈ f.parameters, TypeInside scope.types p.type p.typeId := by
  have both := classes.parameters.imp fun _ _ known => And.intro known.inside known
  exact ((List.forall₂_and_left _ _).mp both).1

theorem Classes.related (classes : scope.Classes f receiver parameters result) :
    List.Forall₂ scope.ClassOf (f.parameterTypes scope.types)
      (receiver.toList ++ parameters) :=
  List.rel_append classes.receiver.related (List.forall₂_map_left_iff.mpr classes.parameters)

theorem Classes.computed (classes : scope.Classes f receiver parameters result) :
    scope.computed f =
      .ok (some ('(' :: (parameterDescs receiver parameters).flatten ++ ')' :: ofClassId result)) :=
  scope.computed_ok_iff.mpr ⟨classes.receiver.inside, classes.inside, classes.result.inside, _,
    classes.result.descriptor, scope.methodDescriptor_ok_iff.mpr
      (.inr ⟨_, _, rfl, descriptors_named classes.related, rfl⟩)⟩

theorem Classes.methodDesc (classes : scope.Classes f receiver parameters result)
    (bare : f.signature.bind (·.desc) = none) : scope.methodDesc? f =
      .ok (some ('(' :: (parameterDescs receiver parameters).flatten ++ ')' :: ofClassId result)) := by
  rw [methodDesc?, bare]
  exact classes.computed

theorem method_of_classIds (free : ∀ id ∈ result :: (receiver.toList ++ parameters), ';' ∉ id) :
    Method (parameterDescs receiver parameters) (ofClassId result)
      ('(' :: (parameterDescs receiver parameters).flatten ++ ')' :: ofClassId result) := by
  obtain ⟨free_result, free_parameters⟩ := List.forall_mem_cons.mp free
  refine ⟨?_, Descriptor.ofClassId_form free_result, rfl⟩
  exact List.forall_mem_map.mpr fun id member =>
    Descriptor.ofClassId_form (free_parameters id member)

end Classes

theorem names_within (outer : Scope) (table : Option Payload.TypeTable) :
    (outer.within table).Names = outer.Names := by
  have inner : outer.within table = ⟨outer.names, (Payload.own? table).getD outer.types⟩ :=
    within_eq outer.names outer.types table
  rw [inner]
  rfl

/-- A function whose types are classes without a semicolon is read if its names are, and has a
descriptor that can be read back in one way only: to the descriptors of the receiver, if there is
one, of the parameters in their order, and of the result. -/
theorem function_descriptor (outer : Scope) {f : Payload.Function} {receiver : Option Text}
    {parameters : List Text} {result : Text} (bare : f.signature.bind (·.desc) = none)
    (classes : (outer.within f.typeTable).Classes f receiver parameters result)
    (free : ∀ id ∈ result :: (receiver.toList ++ parameters), ';' ∉ id) :
    ((∃ g, outer.function f = .ok g) ↔ f.Named outer.Names) ∧
    ∀ g, outer.function f = .ok g → ∃ name desc, g.signature = some ⟨name, desc⟩ ∧
      Method (parameterDescs receiver parameters) (ofClassId result) desc ∧
      (∀ types value, Method types value desc →
        types = parameterDescs receiver parameters ∧ value = ofClassId result) ∧
      ∀ type ∈ ofClassId result :: parameterDescs receiver parameters, '.' ∉ type := by
  have computed := classes.methodDesc bare
  refine ⟨?_, fun g read => ?_⟩
  · rw [exists_function_iff rfl, names_within, computed]
    simp
  · obtain ⟨_, ⟨name, desc, _, ended, signature⟩, _⟩ := (function_ok_iff rfl).mp read
    cases computed.symm.trans ended
    have method := method_of_classIds free
    refine ⟨name, _, signature.symm, method, fun types value also => method.unique also, ?_⟩
    rw [parameterDescs, ← List.map_cons, List.forall_mem_map]
    exact fun id _ => Descriptor.dot_not_mem_ofClassId id

def brackets : StringTable :=
  ⟨["f".toList, "p".toList, "a/B)[.C".toList, "kotlin/IntArray".toList, "kotlin/Unit".toList],
    [], []⟩

/-- An extension of a class with brackets in its name. -/
def extension : Payload.Function where
  name := some 0
  receiverType := some { className := some 2 }
  parameters := [{ name := some 1, typeId := some 0 }]
  returnType := some { className := some 4 }
  typeTable := some ⟨[{ className := some 3 }]⟩

theorem function_descriptor_extension :
    ∃ g name, (Scope.mk brackets []).function extension = .ok g ∧
      g.signature = some ⟨name, "(La/B)[$C;[I)V".toList⟩ ∧
      ∀ types value, Method types value "(La/B)[$C;[I)V".toList →
        types = ["La/B)[$C;".toList, "[I".toList] ∧ value = "V".toList := by
  have classes : ((Scope.mk brackets []).within extension.typeTable).Classes extension
      (some "a/B)[.C".toList) ["kotlin/IntArray".toList] "kotlin/Unit".toList :=
    ⟨⟨2, rfl, rfl⟩, .cons ⟨3, rfl, rfl⟩ .nil, ⟨4, rfl, rfl⟩⟩
  obtain ⟨read, known⟩ := function_descriptor (Scope.mk brackets []) rfl classes (by decide)
  have named : extension.Named (Scope.mk brackets []).Names :=
    ⟨⟨0, rfl, _, rfl⟩, nofun, List.forall_mem_singleton.mpr ⟨1, rfl, _, rfl⟩⟩
  obtain ⟨g, ok⟩ := read.mpr named
  obtain ⟨name, desc, signature, method, unique, _⟩ := known g ok
  have parameters : parameterDescs (some "a/B)[.C".toList) ["kotlin/IntArray".toList] =
      ["La/B)[$C;".toList, "[I".toList] := by decide +kernel
  have result : ofClassId "kotlin/Unit".toList = "V".toList := by decide +kernel
  rw [parameters, result] at method unique
  obtain rfl : desc = "(La/B)[$C;[I)V".toList := method.written.trans (by decide)
  exact ⟨g, name, ok, signature, unique⟩

end SmaliReport.Scope
