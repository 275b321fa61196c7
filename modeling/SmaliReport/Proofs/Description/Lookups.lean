import SmaliReport.Tree.Basic

/-!
Descriptions over a string table with more texts. A lookup that succeeds does not depend on texts
behind those it needs, and a lookup that fails is never taken for a missing value. So a header with
more texts is described as before, wherever it was described before.
-/

namespace SmaliReport

variable {ε α β : Type}

/-- The second result is the first one, unless the first one is an error. -/
def Gives (first second : Except ε α) : Prop := ∀ a, first = .ok a → second = .ok a

namespace Gives

theorem refl (result : Except ε α) : Gives result result := fun _ ok => ok

theorem bind {first second : Except ε α} {next other : α → Except ε β}
    (gives : Gives first second) (each : ∀ a, Gives (next a) (other a)) :
    Gives (first >>= next) (second >>= other) := by
  intro b ok
  cases ended : first with
  | error e =>
    rw [ended] at ok
    cases ok
  | ok a =>
    rw [ended] at ok
    rw [gives a ended]
    exact each a b ok

theorem map {first second : Except ε α} (gives : Gives first second) (f : α → β) :
    Gives (first.map f) (second.map f) := by
  intro b ok
  cases ended : first with
  | error e =>
    rw [ended] at ok
    cases ok
  | ok a =>
    rw [ended] at ok
    rw [gives a ended]
    exact ok

theorem mapM {read other : α → Except ε β} (each : ∀ a, Gives (read a) (other a)) (as : List α) :
    Gives (as.mapM read) (as.mapM other) := by
  induction as with
  | nil => exact refl _
  | cons a rest ih =>
    simp only [List.mapM_cons]
    exact (each a).bind fun b => ih.bind fun bs => refl _

theorem ite (condition : Prop) [Decidable condition] {first second other another : Except ε α}
    (yes : Gives first second) (no : Gives other another) :
    Gives (if condition then first else other) (if condition then second else another) := by
  split
  · exact yes
  · exact no

end Gives

namespace StringTable

variable {types : Payload.StringTableTypes} {texts : List Text} {table : StringTable}

/-- The table with texts behind those it has. -/
def append (table : StringTable) (more : List Text) : StringTable :=
  { table with texts := table.texts ++ more }

theorem of_append (more : List Text) (made : of types texts = .ok table) :
    of types (texts ++ more) = .ok (table.append more) := by
  simp only [of] at made ⊢
  split at made
  · cases made
  · rename_i covered
    cases made
    have covered_more : ¬(texts ++ more).length <
        types.records.foldr (fun r rest => coverage r + rest) 0 := by
      rw [List.length_append]
      omega
    rw [if_neg covered_more]
    rfl

variable (table) (more : List Text)

/-- An entry that is there stays as it is: its record is the same, and so is its stored text. -/
theorem string_append (index : Int32) :
    Gives (table.string index) ((table.append more).string index) := by
  intro t found
  unfold string at found ⊢
  cases position : index? index with
  | none =>
    rw [position] at found
    cases found
  | some i =>
    simp only [position] at found ⊢
    cases own : table.records[i]? >>= source? with
    | some t =>
      simp only [own, append] at found ⊢
      exact found
    | none =>
      simp only [own, append, Option.orElse_eq_orElse, Option.orElse_none] at found ⊢
      cases stored : table.texts[i]? with
      | none =>
        rw [stored] at found
        cases found
      | some t =>
        rw [stored] at found
        obtain ⟨inside, _⟩ := List.getElem?_eq_some_iff.mp stored
        rw [List.getElem?_append_left inside, stored]
        exact found

theorem className_append (index : Int32) :
    Gives (table.className index) ((table.append more).className index) :=
  (string_append table more index).bind fun _ => .refl _

end StringTable

namespace Scope

/-- The scope with more texts to look up. -/
def append (scope : Scope) (more : List Text) : Scope :=
  { scope with names := scope.names.append more }

theorem within_append (scope : Scope) (more : List Text) (table : Option Payload.TypeTable) :
    (scope.append more).within table = (scope.within table).append more := by
  cases table with
  | none => rfl
  | some table =>
    simp only [within]
    split <;> rfl

section Lookups

variable (scope : Scope) (more : List Text)

theorem stringOr_append (default : Text) (index : Option Int32) :
    Gives (scope.stringOr default index) ((scope.append more).stringOr default index) := by
  cases index with
  | none => exact .refl _
  | some index => exact scope.names.string_append more index

theorem required_append (field : String) (index : Option Int32) :
    Gives (required field index >>= scope.names.string)
      (required field index >>= (scope.append more).names.string) :=
  (Gives.refl _).bind (scope.names.string_append more)

theorem descriptor_append (type : Option Payload.TypeRef) :
    Gives (scope.descriptor? type) ((scope.append more).descriptor? type) := by
  unfold descriptor?
  split
  · exact (scope.names.string_append more _).map _
  · exact .refl _

theorem descriptors_append (types : List (Option Payload.TypeRef)) :
    Gives (scope.descriptors? types) ((scope.append more).descriptors? types) := by
  induction types with
  | nil => exact .refl _
  | cons type rest ih =>
    refine (descriptor_append scope more type).bind fun desc => ?_
    cases desc with
    | none => exact .refl _
    | some desc => exact ih.bind fun others => .refl _

theorem methodDescriptor_append (parameters : List (Option Payload.TypeRef))
    (result : Option Text) :
    Gives (scope.methodDescriptor? parameters result)
      ((scope.append more).methodDescriptor? parameters result) := by
  cases result with
  | none => exact .refl _
  | some result => exact (descriptors_append scope more parameters).bind fun _ => .refl _

theorem classifier_append (type : Payload.TypeRef) :
    Gives (scope.classifier type) ((scope.append more).classifier type) := by
  unfold classifier
  split
  · exact (scope.names.className_append more _).map _
  · exact .refl _
  · exact (scope.names.string_append more _).map _
  · exact (scope.names.className_append more _).map _
  · exact .refl _

theorem argumentNames_append (parameters : List Payload.Parameter) :
    Gives (scope.argumentNames parameters) ((scope.append more).argumentNames parameters) := by
  have each (p : Payload.Parameter) := required_append scope more "ValueParameter.name" p.name
  exact .mapM each parameters

theorem function_append (f : Payload.Function) :
    Gives (scope.function f) ((scope.append more).function f) := by
  unfold function
  rw [within_append]
  generalize scope.within f.typeTable = inner
  refine (required_append inner more _ f.name).bind fun name => ?_
  refine (stringOr_append inner more name _).bind fun methodName => ?_
  have ended (function : List Text → Function) :=
    (argumentNames_append inner more f.parameters).bind fun names =>
      Gives.refl (.ok (function names) : Except DecodeError Function)
  cases f.signature.bind (·.desc) with
  | some index => exact ((inner.names.string_append more index).map _).bind fun _ => ended _
  | none =>
    refine (Gives.refl _).bind fun receiver => (Gives.refl _).bind fun parameters => ?_
    refine (Gives.refl _).bind fun type => (descriptor_append inner more type).bind fun result => ?_
    exact (methodDescriptor_append inner more _ result).bind fun _ => ended _

theorem constructor_append (c : Payload.Constructor) :
    Gives (scope.constructor c) ((scope.append more).constructor c) := by
  refine (stringOr_append scope more _ _).bind fun name => ?_
  have ended (constructor : List Text → Function) :=
    (argumentNames_append scope more c.parameters).bind fun names =>
      Gives.refl (.ok (constructor names) : Except DecodeError Function)
  cases c.signature.bind (·.desc) with
  | some index => exact ((scope.names.string_append more index).map _).bind fun _ => ended _
  | none =>
    refine (Gives.refl _).bind fun parameters => ?_
    exact (methodDescriptor_append scope more parameters _).bind fun _ => ended _

theorem property_append (p : Payload.Property) :
    Gives (scope.property p) ((scope.append more).property p) := by
  refine (required_append scope more _ p.name).bind fun name => ?_
  cases p.signature.bind (·.field) with
  | none => exact .refl _
  | some field =>
    refine (stringOr_append scope more name field.name).bind fun fieldName => ?_
    cases field.desc with
    | some index => exact ((scope.names.string_append more index).map _).bind fun _ => .refl _
    | none =>
      have type := (Gives.refl (scope.type? p.returnType p.returnTypeId)).bind
        (descriptor_append scope more)
      exact type.bind fun _ => .refl _

theorem members_append (functions : List Payload.Function) (properties : List Payload.Property) :
    Gives (scope.members functions properties)
      ((scope.append more).members functions properties) :=
  (Gives.mapM (function_append scope more) functions).bind fun _ =>
    (Gives.mapM (property_append scope more) properties).bind fun _ => .refl _

theorem supertypes_append (c : Payload.Class) :
    Gives (scope.supertypes c) ((scope.append more).supertypes c) := by
  unfold supertypes
  split
  · exact .mapM (fun id => (Gives.refl _).bind (classifier_append scope more)) c.supertypeIds
  · exact .mapM (classifier_append scope more) c.supertypes

theorem classInfo_append (c : Payload.Class) :
    Gives (scope.classInfo c) ((scope.append more).classInfo c) := by
  have texts := scope.names.string_append more
  have named (field : String) := required_append scope more field
  refine ((Gives.refl _).bind (scope.names.className_append more)).bind fun name => ?_
  refine (supertypes_append scope more c).bind fun supertypes => ?_
  refine (stringOr_append scope more _ c.moduleName).bind fun moduleName => ?_
  refine Gives.bind ?_ fun companion => ?_
  · cases c.companionName with
    | none => exact .refl _
    | some index => exact (texts index).map _
  · refine (Gives.mapM (fun a => named _ a.name) c.typeAliases).bind fun typeAliases => ?_
    refine (Gives.mapM texts c.nestedClassNames).bind fun nestedClasses => ?_
    refine (Gives.mapM (fun e => named _ e.name) c.enumEntries).bind fun enumEntries => ?_
    refine (Gives.mapM (constructor_append scope more) c.constructors).bind fun constructors => ?_
    exact (members_append scope more c.functions c.properties).bind fun _ => .refl _

end Lookups

end Scope

namespace Header

/-- The header with texts behind those it has. -/
def append (h : Header) (more : List Text) : Header := { h with data2 := h.data2 ++ more }

variable (h : Header) (more : List Text)

@[simp] theorem kind_append : (h.append more).kind = h.kind := rfl

@[simp] theorem extraString_append : (h.append more).extraString = h.extraString := rfl

@[simp] theorem metadataVersion_append : (h.append more).metadataVersion = h.metadataVersion := rfl

@[simp] theorem data1_append : (h.append more).data1 = h.data1 := rfl

@[simp] theorem data2_append : (h.append more).data2 = h.data2 ++ more := rfl

/-- The message is read apart from the texts, and the names have the texts behind their own. -/
theorem content_append {σ : Type} (schema : Payload.Schema σ) {names : StringTable} {message : σ}
    (read : h.content schema = .ok (names, message)) :
    (h.append more).content schema = .ok (names.append more, message) := by
  simp only [content, data1_append, data2_append] at read ⊢
  cases decoded :
      (Payload.read schema (Payload.bytesOf h.data1)).mapError DecodeError.malformed with
  | error e =>
    rw [decoded] at read
    cases read
  | ok payload =>
    simp only [decoded, bind, Except.bind] at read ⊢
    cases made : StringTable.of payload.1 h.data2 with
    | error e =>
      rw [made] at read
      cases read
    | ok table =>
      rw [made] at read
      cases read
      rw [StringTable.of_append more made]

/-- What is said of the message of a header stays as it is with more texts. -/
theorem content_bind {σ β : Type} (schema : Payload.Schema σ)
    {say : StringTable × σ → Except DecodeError β}
    (each : ∀ names message, Gives (say (names, message)) (say (names.append more, message))) :
    Gives (h.content schema >>= say) ((h.append more).content schema >>= say) := by
  intro b said
  cases read : h.content schema with
  | error e =>
    rw [read] at said
    cases said
  | ok pair =>
    rw [read] at said
    rw [h.content_append more schema read]
    exact each pair.1 pair.2 b said

theorem package_append : Gives h.package (h.append more).package :=
  h.content_bind more _ fun names p =>
    Scope.members_append (.of names p.typeTable) more p.functions p.properties

theorem describe_gives : Gives h.describe (h.append more).describe := by
  simp only [describe, kind_append, extraString_append, metadataVersion_append, data1_append]
  refine .ite _ (.refl _) ?_
  split
  · refine h.content_bind more _ fun names c => ?_
    exact (Scope.classInfo_append (.of names c.typeTable) more c).map _
  · exact (h.package_append more).map _
  · refine .ite _ (.refl _) ?_
    refine h.content_bind more _ fun names f => ?_
    exact (Scope.function_append (.of names none) more f).map _
  · exact .refl _
  · exact (h.package_append more).map _
  · exact .refl _

/-- A header that is described is described in the same way with more texts. So a file that is read
with too few of its texts either has no leaf or the description it has with all of them. -/
theorem describe_append :
    (∀ d, h.describe = .ok d → (h.append more).describe = .ok d) ∧
      ∀ name cut full, ofSmali? cut = some h → ofSmali? full = some (h.append more) →
        Leaf.ofSmali? name cut = none ∨
          ∃ d, Leaf.ofSmali? name cut = some ⟨name, h, d⟩ ∧
            Leaf.ofSmali? name full = some ⟨name, h.append more, d⟩ := by
  refine ⟨h.describe_gives more, fun name cut full read read_full => ?_⟩
  simp only [Leaf.ofSmali?, read, read_full, bind, Option.bind]
  cases described : h.describe with
  | error e => exact .inl rfl
  | ok d =>
    rw [h.describe_gives more d described]
    exact .inr ⟨d, rfl, rfl⟩

/-- A class with a function, named by the first two texts. -/
def member : Header where
  data1 := ["\x00\x00\x18\x00\x4a\x02\x10\x01".toList]
  data2 := ["a/B".toList, "f".toList]
  data1_ne_nil := nofun

/-- The file of that class, with a text that is cut off if it has a brace. -/
def memberFile (last : String) : Text :=
  ".annotation runtime Lkotlin/Metadata;\n    k = 0x1\n    d1 = \x7b\n".toList ++
    "        \"\\u0000\\u0000\\u0018\\u0000\\u004a\\u0002\\u0010\\u0001\"\n    \x7d\n".toList ++
    "    d2 = \x7b\n        \"a/B\",\n        \"f\",\n        \"".toList ++ last.toList ++
    "\"\n    \x7d\n.end annotation\n".toList

theorem describe_append_member :
    (∃ d, member.describe = .ok d ∧ (member.append [['g']]).describe = .ok d) ∧
      ∃ d, Leaf.ofSmali? ['B'] (memberFile "g\x7d") = some ⟨['B'], member, d⟩ ∧
        Leaf.ofSmali? ['B'] (memberFile "g") = some ⟨['B'], member.append [['g']], d⟩ := by
  have extended := member.describe_append [['g']]
  constructor
  · have described : member.describe.isOk = true := by decide +kernel
    cases read : member.describe with
    | error e =>
      rw [read] at described
      cases described
    | ok d => exact ⟨d, rfl, extended.1 d read⟩
  · have leaf : Leaf.ofSmali? ['B'] (memberFile "g\x7d") ≠ none := by decide +kernel
    exact (extended.2 _ _ _ (by decide +kernel) (by decide +kernel)).resolve_left leaf

end Header

end SmaliReport
