import SmaliReport.Names.Descriptor
import SmaliReport.Proofs.Names.Lookup
import SmaliReport.Proofs.Text.Fragments

/-!
Descriptors as they can be read back. A type at the front of a text ends at the same place however
the text goes on, so that the types in a row are known from their texts one after another. A class
id and a descriptor are two ways to write an internal name, but for the builtin classes, which have
the descriptors of other names.
-/

namespace SmaliReport.Descriptor

section Forms

def letters : List Char := ['Z', 'C', 'B', 'S', 'I', 'F', 'J', 'D']

theorem letter_apart : ∀ c ∈ letters, c ≠ 'L' ∧ c ≠ '[' ∧ c ≠ '.' := by
  simp [letters]

/-- The descriptor of a type: of a primitive one, of an array of those, of a class, or `V`. -/
inductive Form : Text → Prop
  | primitive {letter} (known : letter ∈ letters) : Form [letter]
  | array {letter} (known : letter ∈ letters) : Form ['[', letter]
  | named {name} (free : ';' ∉ name) : Form (ofInternal name)
  | void : Form ['V']

/-- The type at the front of a text, and the text behind it. -/
def front? : Text → Option (Text × Text)
  | 'L' :: rest => (Text.cut? ';' rest).map fun (name, behind) => (ofInternal name, behind)
  | '[' :: letter :: rest => if letter ∈ letters then some (['[', letter], rest) else none
  | letter :: rest => if letter = 'V' ∨ letter ∈ letters then some ([letter], rest) else none
  | [] => none

theorem front_form {type : Text} (form : Form type) (behind : Text) :
    front? (type ++ behind) = some (type, behind) := by
  cases form with
  | @primitive letter known =>
    obtain ⟨named, array, _⟩ := letter_apart letter known
    rw [List.cons_append, List.nil_append, front?.eq_3 letter behind named (by simp [array]),
      if_pos (.inr known)]
  | array known => exact if_pos known
  | @named name free =>
    have shape : ofInternal name ++ behind = 'L' :: (name ++ ';' :: behind) := by simp [ofInternal]
    rw [shape, front?, Text.cut_append ';' name behind free, Option.map_some]
  | void => rfl

/-- No type is the beginning of another one. -/
theorem Form.unique {type other behind rest : Text} (form : Form type) (also : Form other)
    (same : type ++ behind = other ++ rest) : type = other ∧ behind = rest := by
  have read : some (type, behind) = some (other, rest) := by
    rw [← front_form form, ← front_form also, same]
  simpa using read

theorem front_closing (behind : Text) : front? (')' :: behind) = none := rfl

theorem forms_unique {types others : List Text} {behind rest : Text}
    (forms : ∀ t ∈ types, Form t) (also : ∀ t ∈ others, Form t)
    (same : types.flatten ++ ')' :: behind = others.flatten ++ ')' :: rest) :
    types = others ∧ behind = rest := by
  induction types generalizing others with
  | nil =>
    cases others with
    | nil => exact ⟨rfl, (List.cons.inj same).2⟩
    | cons t others =>
      -- A type would begin with the closing bracket.
      have read := front_form (also t List.mem_cons_self) (others.flatten ++ ')' :: rest)
      rw [← List.append_assoc, ← List.flatten_cons, ← same] at read
      cases (front_closing behind).symm.trans read
  | cons t types ih =>
    obtain ⟨form, forms⟩ := List.forall_mem_cons.mp forms
    cases others with
    | nil =>
      have read := front_form form (types.flatten ++ ')' :: behind)
      rw [← List.append_assoc, ← List.flatten_cons, same] at read
      cases (front_closing rest).symm.trans read
    | cons other others =>
      obtain ⟨form_other, forms_others⟩ := List.forall_mem_cons.mp also
      simp only [List.flatten_cons, List.append_assoc] at same
      obtain ⟨rfl, rest_same⟩ := form.unique form_other same
      obtain ⟨rfl, behind_same⟩ := ih forms forms_others rest_same
      exact ⟨rfl, behind_same⟩

/-- The text is the descriptor of a method with parameters of these types and this result. -/
structure Method (types : List Text) (result desc : Text) : Prop where
  parameters : ∀ t ∈ types, Form t
  value : Form result
  written : desc = '(' :: types.flatten ++ ')' :: result

theorem Method.unique {types others : List Text} {result other desc : Text}
    (method : Method types result desc) (also : Method others other desc) :
    others = types ∧ other = result := by
  have same := also.written.symm.trans method.written
  exact forms_unique also.parameters method.parameters (List.cons.inj same).2

end Forms

section Classes

theorem primitives_letters : ∀ entry ∈ primitives, ∃ c ∈ letters, [c] = entry.2.toList := by
  have written : ∀ entry ∈ primitives, entry.2.toList ∈ letters.map ([·]) := by decide
  exact fun entry member => List.mem_map.mp (written entry member)

/-- A part of an internal name. -/
def Internal (part : String) : Prop := ';' ∉ part.toList ∧ '.' ∉ part.toList

instance : DecidablePred Internal := fun _ => inferInstanceAs (Decidable (_ ∧ _))

theorem Internal.append {part more : String} (internal : Internal part) (also : Internal more) :
    Internal (part ++ more) := by
  unfold Internal
  simp only [String.toList_append, List.mem_append, not_or]
  exact ⟨⟨internal.1, also.1⟩, internal.2, also.2⟩

theorem mapped_internal : ∀ entry ∈ mapped, Internal entry.2 := by
  simp only [mapped, List.forall_mem_append, List.forall_mem_map, List.forall_mem_flatMap]
  -- One goal for each part of the table; names made from a list are put together from their parts.
  refine ⟨⟨⟨⟨⟨?_, ?_⟩, ?_⟩, ?_⟩, ?_⟩, ?_⟩
  · decide +kernel
  · have names : ∀ name ∈ ["String", "CharSequence", "Throwable", "Cloneable", "Number",
        "Comparable", "Enum"], Internal name := by decide +kernel
    have package : Internal "java/lang/" := by decide
    exact fun name member => package.append (names name member)
  · have names : ∀ name ∈ ["Iterator", "Collection", "List", "Set", "Map", "ListIterator"],
        Internal name := by decide +kernel
    have package : Internal "java/util/" := by decide
    intro name member
    have internal : Internal ("java/util/" ++ name) := package.append (names name member)
    exact List.forall_mem_cons.mpr ⟨internal, List.forall_mem_singleton.mpr internal⟩
  · decide +kernel
  · have numbers : ∀ arity ∈ List.range 23, Internal (toString arity) := by decide +kernel
    have function : Internal "kotlin/jvm/functions/Function" := by decide
    have reflected : Internal "kotlin/reflect/KFunction" := by decide
    intro arity member
    have numbered : Internal (s!"kotlin/jvm/functions/Function{arity}") :=
      function.append (numbers arity member)
    exact List.forall_mem_cons.mpr ⟨numbered, List.forall_mem_singleton.mpr reflected⟩
  · have names : ∀ name ∈ ["Char", "Byte", "Short", "Int", "Float", "Long", "Double", "String",
        "Enum"], Internal name := by decide +kernel
    have package : Internal "kotlin/jvm/internal/" := by decide
    have ending : Internal "CompanionObject" := by decide
    exact fun name member => (package.append (names name member)).append ending

theorem builtin_form {id desc : Text} (builtin : (id, desc) ∈ builtins) :
    Form desc ∧ '.' ∉ desc := by
  simp only [builtins, List.mem_append, List.mem_flatMap, List.mem_cons, List.not_mem_nil, or_false,
    List.mem_map, Prod.mk.injEq] at builtin
  rcases builtin with (⟨⟨_, _⟩, known, single | array⟩ | ⟨_, rfl⟩) | ⟨⟨_, java⟩, known, _, rfl⟩
  · obtain ⟨c, letter, written⟩ := primitives_letters _ known
    rw [single.2, ← written]
    exact ⟨.primitive letter, by simp [(letter_apart c letter).2.2.symm]⟩
  · obtain ⟨c, letter, written⟩ := primitives_letters _ known
    rw [array.2, ← written]
    exact ⟨.array letter, by simp [(letter_apart c letter).2.2.symm]⟩
  · exact ⟨.void, by decide⟩
  · obtain ⟨free, dotless⟩ := mapped_internal _ known
    exact ⟨.named free, by simpa [ofInternal] using dotless⟩

theorem ofClassId_cases (id : Text) :
    (id, ofClassId id) ∈ builtins ∨
      id ∉ builtins.map (·.1) ∧ ofClassId id = ofInternal (Text.swap '.' '$' id) := by
  unfold ofClassId
  cases found : builtins.lookup id with
  | some desc =>
    obtain ⟨before, after, entries, _⟩ := List.lookup_eq_some_iff.mp found
    refine .inl ?_
    rw [Option.getD_some, entries]
    exact List.mem_append_right _ List.mem_cons_self
  | none =>
    refine .inr ⟨fun builtin => ?_, rfl⟩
    obtain ⟨entry, member, rfl⟩ := List.mem_map.mp builtin
    simpa using List.lookup_eq_none_iff.mp found entry member

/-- A class id without a semicolon has a descriptor that ends at its own semicolon. -/
theorem ofClassId_form {id : Text} (free : ';' ∉ id) : Form (ofClassId id) := by
  rcases ofClassId_cases id with builtin | ⟨_, other⟩
  · exact (builtin_form builtin).1
  · rw [other]
    refine .named fun member => ?_
    obtain ⟨c, known, swapped⟩ := List.mem_map.mp member
    split at swapped
    · exact absurd swapped (by decide)
    · exact free (swapped ▸ known)

theorem dot_not_mem_ofClassId (id : Text) : '.' ∉ ofClassId id := by
  rcases ofClassId_cases id with builtin | ⟨_, other⟩
  · exact (builtin_form builtin).2
  · rw [other]
    have gone : '.' ∉ Text.swap '.' '$' id := by
      intro member
      obtain ⟨c, _, swapped⟩ := List.mem_map.mp member
      split at swapped
      · exact absurd swapped (by decide)
      · exact absurd swapped ‹_›
    simpa [ofInternal] using gone

end Classes

section ClassIds

def classId (internal : Text) : Text := Text.swap '$' '.' internal

theorem swap_swap (old : Char) {new : Char} {t : Text} (absent : new ∉ t) :
    Text.swap new old (Text.swap old new t) = t := by
  have back : ∀ c ∈ t, (if (if c = old then new else c) = new then old
      else if c = old then new else c) = c := by
    intro c member
    by_cases swapped : c = old
    · rw [if_pos swapped, if_pos rfl, swapped]
    · rw [if_neg swapped, if_neg fun same : c = new => absent (same ▸ member)]
  rw [Text.swap, Text.swap, List.map_map]
  exact (List.map_congr_left back).trans t.map_id

theorem classId_injective {name other : Text} (plain : '.' ∉ name) (also : '.' ∉ other)
    (same : classId name = classId other) : name = other := by
  rw [← swap_swap '$' plain, ← swap_swap '$' also]
  exact congrArg _ same

theorem ofClassId_classId {name : Text} (plain : '.' ∉ name)
    (own : classId name ∉ builtins.map (·.1)) : ofClassId (classId name) = ofInternal name := by
  rcases ofClassId_cases (classId name) with builtin | ⟨_, other⟩
  · exact absurd (List.mem_map_of_mem builtin) own
  · rw [other, classId, swap_swap '$' plain]

theorem ofInternal_injective {name other : Text} (same : ofInternal name = ofInternal other) :
    name = other :=
  List.append_cancel_right (List.cons.inj same).2

end ClassIds

end SmaliReport.Descriptor

namespace SmaliReport.StringTable

open Payload (Record StringTableTypes)

/-- The entry is what an operation makes of a text, without a substring or a replacement. -/
def Operates (table : StringTable) (index operation : Int32) (text : Text) : Prop :=
  ∃ (i : Nat) (record : Record), index.toInt = i ∧ table.records[i]? = some record ∧
    (source? record <|> table.texts[i]?) = some text ∧ record.operation = some operation ∧
      record.substringIndex = [] ∧ record.replaceChar = []

theorem string_operates {table : StringTable} {index operation : Int32} {text : Text}
    (operates : table.Operates index operation text) :
    table.string index = .ok (operate (some operation) text) := by
  obtain ⟨i, record, value, own, source, operation_eq, whole, kept⟩ := operates
  simp only [string, index?_eq_some_iff.mpr value, own, Option.bind_eq_bind, Option.bind_some,
    source, Option.map_some, Option.getD_some, transform, operation_eq, whole, kept, substring,
    replacement]

theorem operate_internal (name : Text) :
    operate (some 1) name = Descriptor.classId name := by
  rw [operate, if_pos rfl, Descriptor.classId]

theorem operate_descriptor (name : Text) :
    operate (some 2) (Descriptor.ofInternal name) = Descriptor.classId name := by
  have inner : ((Descriptor.ofInternal name).drop 1).dropLast = name := by
    simp [Descriptor.ofInternal]
  have long : 2 ≤ (Descriptor.ofInternal name).length := by simp [Descriptor.ofInternal]
  rw [operate, if_neg (by decide), if_pos rfl, if_pos long, inner, Descriptor.classId]

end SmaliReport.StringTable

namespace SmaliReport.Descriptor

open StringTable (Operates string_operates operate_internal operate_descriptor)

/-- An internal name without a dot and the descriptor with it give the same class id, and that gives
the descriptor back, unless it is the id of a builtin class. So different names have different class
ids and different descriptors. -/
theorem classId_inverse (name : Text) (plain : '.' ∉ name)
    (own : classId name ∉ builtins.map (·.1)) :
    (∀ table index, Operates table index 2 (ofInternal name) →
      table.string index = .ok (classId name)) ∧
    (∀ table index, Operates table index 1 name → table.string index = .ok (classId name)) ∧
    ofClassId (classId name) = ofInternal name ∧
    ∀ other, '.' ∉ other → other ≠ name → classId other ≠ classId name ∧
      (classId other ∉ builtins.map (·.1) →
        ofClassId (classId other) ≠ ofClassId (classId name)) := by
  refine ⟨fun table index operates => ?_, fun table index operates => ?_,
    ofClassId_classId plain own, fun other also differs => ⟨fun same => ?_, fun free same => ?_⟩⟩
  · rw [string_operates operates, operate_descriptor]
  · rw [string_operates operates, operate_internal]
  · exact differs (classId_injective also plain same)
  · rw [ofClassId_classId plain own, ofClassId_classId also free] at same
    exact differs (ofInternal_injective same)

/-- A nested class, stored by its descriptor and by its name. -/
def stored : StringTable :=
  ⟨["La/B$C;".toList, "a/B$C".toList], [{ operation := some 2 }, { operation := some 1 }], []⟩

theorem classId_inverse_nested :
    '.' ∉ "a/B$C".toList ∧ classId "a/B$C".toList ∉ builtins.map (·.1) ∧
      stored.string 0 = .ok "a/B.C".toList ∧ stored.string 1 = .ok "a/B.C".toList ∧
      ofClassId "a/B.C".toList = "La/B$C;".toList ∧
      ofClassId "a/B/C".toList ≠ ofClassId "a/B.C".toList := by
  have plain : '.' ∉ "a/B$C".toList := by decide
  have own : classId "a/B$C".toList ∉ builtins.map (·.1) := by decide +kernel
  have slashed : classId "a/B/C".toList ∉ builtins.map (·.1) := by decide +kernel
  obtain ⟨ofDescriptor, ofName, back, apart⟩ := classId_inverse "a/B$C".toList plain own
  refine ⟨plain, own, ?_, ?_, back, ?_⟩
  · exact ofDescriptor stored 0 ⟨0, _, by decide, rfl, rfl, rfl, rfl, rfl⟩
  · exact ofName stored 1 ⟨1, _, by decide, rfl, rfl, rfl, rfl, rfl⟩
  · exact (apart "a/B/C".toList (by decide) (by decide)).2 slashed

end SmaliReport.Descriptor
