import SmaliReport.Description.Report
import SmaliReport.Proofs.Text.Lines

/-!
What a report tells of a description. Its first lines tell the layout, an empty line ends a section,
and only a section without entries has a line that is indented and otherwise empty. So a report of
texts without line feeds tells every value and every entry, as they are printed.
-/

namespace SmaliReport

/-! The texts of a description, of which a report is made. -/

def Classifier.texts : Classifier → List Text
  | .class name | .alias name | .named name => [name]
  | .parameter _ => []

def Signature.texts (s : Signature) : List Text := [s.name, s.desc]

def Function.texts (f : Function) : List Text :=
  f.name :: (f.signature.toList.flatMap Signature.texts ++ f.arguments)

def Property.texts (p : Property) : List Text :=
  p.name :: p.field.toList.flatMap Signature.texts

def Members.texts (m : Members) : List Text :=
  m.functions.flatMap Function.texts ++ m.properties.flatMap Property.texts

def ClassInfo.texts (c : ClassInfo) : List Text :=
  c.name :: c.moduleName ::
    (c.supertypes.flatMap Classifier.texts ++ c.typeAliases ++ c.companion.toList ++
      c.nestedClasses ++ c.enumEntries ++ c.constructors.flatMap Function.texts ++ c.members.texts)

namespace Description

def texts : Description → List Text
  | .class c => c.texts
  | .fileFacade m => m.texts
  | .synthetic lambda => lambda.toList.flatMap Function.texts
  | .multiFileFacade parts => parts
  | .multiFilePart facade m => facade :: m.texts
  | .unknown => []

def properties : Description → List Property
  | .class c => c.members.properties
  | .fileFacade m | .multiFilePart _ m => m.properties
  | _ => []

/-- No text breaks a line, and no property is without a name. -/
structure Reportable (d : Description) : Prop where
  single : ∀ t ∈ d.texts, '\n' ∉ t
  named : ∀ p ∈ d.properties, p.name ≠ []

end Description

namespace Report

inductive Variant where
  | ofClass | fileFacade | synthetic | lambda | multiFileFacade | multiFilePart | unknown
  deriving DecidableEq

/-- The variant, the values of the head as they are printed, and the entries by section. -/
structure Contents where
  variant : Variant
  values : List Text := []
  constructors : List Text := []
  functions : List Text := []
  properties : List Text := []
  parts : List Text := []
  deriving DecidableEq

/-- The values in the head of a class's report, line by line. -/
def values (c : ClassInfo) : List Text :=
  [c.name, Text.joined ", " (c.supertypes.map Classifier.text), c.moduleName,
    Text.joined ", " c.typeAliases, c.companion.getD [], Text.joined ", " c.nestedClasses,
    Text.joined ", " c.enumEntries]

end Report

open Report in
def Description.contents : Description → Contents
  | .class c =>
    { variant := .ofClass
      values := values c
      constructors := c.constructors.map Function.entry
      functions := c.members.functions.map Function.entry
      properties := c.members.properties.map Property.entry }
  | .fileFacade m =>
    { variant := .fileFacade
      functions := m.functions.map Function.entry
      properties := m.properties.map Property.entry }
  | .synthetic none => { variant := .synthetic }
  | .synthetic (some f) => { variant := .lambda, functions := [f.entry] }
  | .multiFileFacade parts => { variant := .multiFileFacade, parts }
  | .multiFilePart facade m =>
    { variant := .multiFilePart
      values := [facade]
      functions := m.functions.map Function.entry
      properties := m.properties.map Property.entry }
  | .unknown => { variant := .unknown }

/-! No line of a report is broken by the texts in it. -/

theorem Text.single_joined (mark : String) (clean : '\n' ∉ mark.toList) {entries : List Text}
    (single : ∀ t ∈ entries, '\n' ∉ t) : '\n' ∉ joined mark entries := by
  induction entries with
  | nil => exact List.not_mem_nil
  | cons first rest ih =>
    rw [List.forall_mem_cons] at single
    cases rest with
    | nil => simpa [joined] using single.1
    | cons second rest =>
      have shape : joined mark (first :: second :: rest) =
          first ++ mark.toList ++ joined mark (second :: rest) := by
        simp [joined]
      rw [shape, List.mem_append, List.mem_append, not_or, not_or]
      exact ⟨⟨single.1, clean⟩, ih single.2⟩

theorem Text.single_ofInt (n : Int) : '\n' ∉ ofInt n := by
  have digits (n : Nat) : '\n' ∉ ofNat n := by
    intro feed
    exact absurd (Nat.isDigit_of_mem_toDigits (by decide) (by decide) feed) (by decide)
  cases n with
  | ofNat n => exact digits n
  | negSucc n =>
    rw [ofInt, List.mem_cons, not_or]
    exact ⟨by decide, digits (n + 1)⟩

theorem Classifier.single_text {c : Classifier} (single : ∀ t ∈ c.texts, '\n' ∉ t) :
    '\n' ∉ c.text := by
  have labelled (label : String) (clean : '\n' ∉ label.toList) {t : Text} (whole : '\n' ∉ t) :
      '\n' ∉ label.toList ++ t ++ [')'] := by
    simp only [List.mem_append, not_or]
    exact ⟨⟨clean, whole⟩, by decide⟩
  cases c with
  | «class» name => exact labelled "Class(name=" (by decide) (single name List.mem_cons_self)
  | «alias» name => exact labelled "TypeAlias(name=" (by decide) (single name List.mem_cons_self)
  | parameter id => exact labelled "TypeParameter(id=" (by decide) (Text.single_ofInt id.toInt)
  | named name => exact labelled "TypeParameter(name=" (by decide) (single name List.mem_cons_self)

theorem Function.single_entry {f : Function} (single : ∀ t ∈ f.texts, '\n' ∉ t) :
    '\n' ∉ f.entry := by
  obtain ⟨name, signature, arguments⟩ := f
  simp only [texts, List.forall_mem_cons, List.forall_mem_append] at single
  obtain ⟨clean, signed, given⟩ := single
  have joined := Text.single_joined ", " (by decide) given
  cases signature with
  | none => simpa [entry, clean] using joined
  | some s =>
    have parts : '\n' ∉ s.name ∧ '\n' ∉ s.desc := by simpa [Signature.texts] using signed
    simpa [entry, parts] using joined

theorem Property.single_entry {p : Property} (single : ∀ t ∈ p.texts, '\n' ∉ t) :
    '\n' ∉ p.entry := by
  obtain ⟨name, field⟩ := p
  simp only [texts, List.forall_mem_cons] at single
  cases field with
  | none => simpa [entry] using single.1
  | some s => simpa [entry, Signature.texts] using single.2

namespace Report

theorem single_indented {t : Text} (single : '\n' ∉ t) : '\n' ∉ indented t := by
  simpa [indented] using single

theorem single_entries {ts : List Text} (single : ∀ t ∈ ts, '\n' ∉ t) :
    ∀ line ∈ entries ts, '\n' ∉ line := by
  intro line member
  obtain ⟨t, known, rfl⟩ := List.mem_map.mp member
  apply single_indented
  cases ts with
  | nil => simpa using (List.mem_singleton.mp known) ▸ List.not_mem_nil
  | cons first rest => exact single t known

theorem single_section {title : String} (clean : '\n' ∉ title.toList) {ts : List Text}
    (single : ∀ t ∈ ts, '\n' ∉ t) : ∀ line ∈ sectionOf title ts, '\n' ∉ line :=
  List.forall_mem_cons.mpr
    ⟨List.not_mem_nil, List.forall_mem_cons.mpr ⟨clean, single_entries single⟩⟩

theorem single_members {m : Members} (single : ∀ t ∈ m.texts, '\n' ∉ t) :
    ∀ line ∈ members m, '\n' ∉ line := by
  simp only [Members.texts, List.forall_mem_append, List.forall_mem_flatMap] at single
  rw [members, List.forall_mem_append]
  refine ⟨single_section (by decide) ?_, single_section (by decide) ?_⟩
  · exact List.forall_mem_map.mpr fun f member => Function.single_entry (single.1 f member)
  · exact List.forall_mem_map.mpr fun p member => Property.single_entry (single.2 p member)

theorem single_values {c : ClassInfo} (single : ∀ t ∈ c.texts, '\n' ∉ t) :
    ∀ value ∈ values c, '\n' ∉ value := by
  simp only [ClassInfo.texts, List.forall_mem_cons, List.forall_mem_append,
    List.forall_mem_flatMap] at single
  obtain ⟨name, module, ⟨⟨⟨⟨⟨supertypes, aliases⟩, companion⟩, nested⟩, enums⟩, _⟩, _⟩ := single
  have classifiers : ∀ t ∈ c.supertypes.map Classifier.text, '\n' ∉ t :=
    List.forall_mem_map.mpr fun s member => Classifier.single_text (supertypes s member)
  have joined {entries : List Text} (each : ∀ t ∈ entries, '\n' ∉ t) :=
    Text.single_joined ", " (by decide) each
  have shown : '\n' ∉ c.companion.getD [] := by
    cases found : c.companion with
    | none => exact List.not_mem_nil
    | some t => exact companion t (by simp [found])
  simp only [values, List.forall_mem_cons]
  exact ⟨name, joined classifiers, module, joined aliases, shown, joined nested, joined enums,
    nofun⟩

/-- Lines that each have a label before their value. -/
def labelled (labels : List String) (values : List Text) : List Text :=
  List.zipWith (fun label value => indented (label.toList ++ value)) labels values

def labels : List String :=
  ["Name: ", "Supertypes: ", "Module Name: ", "Type Aliases: ", "Companion Object: ",
    "Nested Classes:  ", "Enum Entries: "]

theorem classHead_eq (c : ClassInfo) :
    classHead c = "Type: Class".toList :: "Class Info:".toList :: labelled labels (values c) := rfl

theorem single_labelled {labels : List String} (clean : ∀ l ∈ labels, '\n' ∉ l.toList)
    {values : List Text} (single : ∀ v ∈ values, '\n' ∉ v) :
    ∀ line ∈ labelled labels values, '\n' ∉ line := by
  induction labels generalizing values with
  | nil => exact nofun
  | cons label labels ih =>
    cases values with
    | nil => exact nofun
    | cons value values =>
      rw [List.forall_mem_cons] at clean single
      refine List.forall_mem_cons.mpr ⟨single_indented ?_, ih clean.2 single.2⟩
      rw [List.mem_append, not_or]
      exact ⟨clean.1, single.1⟩

theorem labelled_injective {labels : List String} {values others : List Text}
    (full : values.length = labels.length) (other_full : others.length = labels.length)
    (same : labelled labels values = labelled labels others) : values = others := by
  induction labels generalizing values others with
  | nil => rw [List.length_eq_zero_iff.mp full, List.length_eq_zero_iff.mp other_full]
  | cons label labels ih =>
    cases values with
    | nil => cases full
    | cons value values =>
      cases others with
      | nil => cases other_full
      | cons other others =>
        obtain ⟨first, rest⟩ := List.cons.inj same
        have here := List.append_cancel_left (List.append_cancel_left first)
        rw [here, ih (Nat.succ.inj full) (Nat.succ.inj other_full) rest]

end Report

open Report in
theorem Description.single_lines {d : Description} (single : ∀ t ∈ d.texts, '\n' ∉ t) :
    ∀ line ∈ d.lines, '\n' ∉ line := by
  cases d with
  | «class» c =>
    have inner : (∀ f ∈ c.constructors, ∀ t ∈ f.texts, '\n' ∉ t) ∧
        ∀ t ∈ c.members.texts, '\n' ∉ t := by
      simp only [texts, ClassInfo.texts, List.forall_mem_cons, List.forall_mem_append,
        List.forall_mem_flatMap] at single
      exact ⟨single.2.2.1.2, single.2.2.2⟩
    have constructors : ∀ t ∈ c.constructors.map Function.entry, '\n' ∉ t :=
      List.forall_mem_map.mpr fun f member => Function.single_entry (inner.1 f member)
    rw [lines, classHead_eq, List.forall_mem_append, List.forall_mem_append, List.forall_mem_cons,
      List.forall_mem_cons]
    exact ⟨⟨⟨by decide, by decide, single_labelled (by decide) (single_values single)⟩,
      single_section (by decide) constructors⟩, single_members inner.2⟩
  | fileFacade m => exact List.forall_mem_cons.mpr ⟨by decide, single_members single⟩
  | synthetic lambda =>
    cases lambda with
    | none =>
      simp only [lines, List.forall_mem_cons]
      exact ⟨by decide, by decide, nofun⟩
    | some f =>
      have entry := Function.single_entry (f := f) (by simpa [texts] using single)
      simp only [lines, List.forall_mem_append, List.forall_mem_cons]
      exact ⟨⟨by decide, by decide, nofun⟩,
        single_section (by decide) (List.forall_mem_singleton.mpr entry)⟩
  | multiFileFacade parts =>
    have named : ∀ t ∈ parts.map ("Class: ".toList ++ ·), '\n' ∉ t := by
      refine List.forall_mem_map.mpr fun part member => ?_
      rw [List.mem_append, not_or]
      exact ⟨by decide, single part member⟩
    simp only [lines, List.forall_mem_append, List.forall_mem_cons]
    exact ⟨⟨by decide, by decide, List.not_mem_nil, nofun⟩, single_entries named⟩
  | multiFilePart facade m =>
    obtain ⟨name, inner⟩ := List.forall_mem_cons.mp single
    have shown : '\n' ∉ "Name: ".toList ++ facade := by
      rw [List.mem_append, not_or]
      exact ⟨by decide, name⟩
    simp only [lines, List.forall_mem_append, List.forall_mem_cons]
    exact ⟨⟨by decide, shown, nofun⟩, single_members inner⟩
  | unknown => exact List.forall_mem_singleton.mpr (by decide)

namespace Report

/-! Entries and sections, read back from their lines. -/

theorem entries_full (ts : List Text) : ∀ line ∈ entries ts, line ≠ [] := by
  intro line member
  obtain ⟨t, _, rfl⟩ := List.mem_map.mp member
  exact List.cons_ne_nil _ _

theorem entries_injective {ts others : List Text} (full : ∀ t ∈ ts, t ≠ [])
    (other_full : ∀ t ∈ others, t ≠ []) (same : entries ts = entries others) : ts = others := by
  have shown := (List.map_inj_right fun _ _ => List.append_cancel_left).mp same
  cases ts with
  | nil =>
    cases others with
    | nil => rfl
    | cons t others => exact absurd (List.cons.inj shown).1.symm (other_full t List.mem_cons_self)
  | cons t ts =>
    cases others with
    | nil => exact absurd (List.cons.inj shown).1 (full t List.mem_cons_self)
    | cons other others => exact shown

/-- Lines that begin behind the last entry of a section. -/
def Ends (rest : List Text) : Prop := ∀ line, rest.head? = some line → line = []

theorem takeWhile_full {front rest : List Text} (full : ∀ line ∈ front, line ≠ [])
    (ends : Ends rest) : (front ++ rest).takeWhile (fun line => !line.isEmpty) = front := by
  have stop : rest.takeWhile (fun line => !line.isEmpty) = [] := by
    cases rest with
    | nil => rfl
    | cons line rest =>
      rw [ends line rfl]
      rfl
  rw [List.takeWhile_append_of_pos (by simpa using full), stop, List.append_nil]

theorem section_injective {title : String} {ts others rest more : List Text}
    (full : ∀ t ∈ ts, t ≠ []) (other_full : ∀ t ∈ others, t ≠ []) (ends : Ends rest)
    (other_ends : Ends more) (same : sectionOf title ts ++ rest = sectionOf title others ++ more) :
    ts = others ∧ rest = more := by
  have below : entries ts ++ rest = entries others ++ more :=
    (List.cons.inj (List.cons.inj same).2).2
  have shown : entries ts = entries others := by
    rw [← takeWhile_full (entries_full ts) ends, below,
      takeWhile_full (entries_full others) other_ends]
  rw [shown] at below
  exact ⟨entries_injective full other_full shown, List.append_cancel_left below⟩

theorem ends_nil : Ends [] := nofun

theorem ends_section (title : String) (ts rest : List Text) : Ends (sectionOf title ts ++ rest) :=
  fun _ first => (Option.some.inj first).symm

theorem function_entries_full (fs : List Function) : ∀ t ∈ fs.map Function.entry, t ≠ [] := by
  refine List.forall_mem_map.mpr fun f _ => ?_
  simp [Function.entry]

theorem property_entries_full {ps : List Property} (named : ∀ p ∈ ps, p.name ≠ []) :
    ∀ t ∈ ps.map Property.entry, t ≠ [] := by
  refine List.forall_mem_map.mpr fun p member => ?_
  cases found : p.field with
  | none => simpa [Property.entry, found] using named p member
  | some s => simp [Property.entry, found]

theorem members_injective {m n : Members} (named : ∀ p ∈ m.properties, p.name ≠ [])
    (other_named : ∀ p ∈ n.properties, p.name ≠ []) (same : members m = members n) :
    m.functions.map Function.entry = n.functions.map Function.entry ∧
      m.properties.map Property.entry = n.properties.map Property.entry := by
  obtain ⟨functions, rest⟩ := section_injective (function_entries_full m.functions)
    (function_entries_full n.functions) (by simpa using ends_section "Properties:" _ [])
    (by simpa using ends_section "Properties:" _ []) same
  rw [← List.append_nil (sectionOf "Properties:" (m.properties.map Property.entry)),
    ← List.append_nil (sectionOf "Properties:" (n.properties.map Property.entry))] at rest
  exact ⟨functions, (section_injective (property_entries_full named)
    (property_entries_full other_named) ends_nil ends_nil rest).1⟩

/-- The first lines of a report, in which the variants differ. -/
def Variant.opening : Variant → List Text
  | .ofClass => ["Type: Class".toList]
  | .fileFacade => ["Type: File Facade".toList]
  | .synthetic => ["Type: Synthetic Class".toList, "Is Kotlin Lambda: False".toList]
  | .lambda => ["Type: Synthetic Class".toList, "Is Kotlin Lambda: True".toList]
  | .multiFileFacade => ["Type: Multi-File Class Facade".toList]
  | .multiFilePart => ["Type: Multi-File Class Part".toList]
  | .unknown => ["Type: Unknown".toList]

theorem Variant.opening_apart {v w : Variant} (front : v.opening <+: w.opening) : v = w := by
  rw [← List.isPrefixOf_iff_prefix] at front
  revert front
  cases v <;> cases w <;> decide

theorem Variant.opening_unique {v w : Variant} {lines : List Text} (opens : v.opening <+: lines)
    (other_opens : w.opening <+: lines) : v = w := by
  rcases List.prefix_or_prefix_of_prefix opens other_opens with front | front
  · exact opening_apart front
  · exact (opening_apart front).symm

end Report

namespace Description

open Report

theorem opening_prefix (d : Description) : d.contents.variant.opening <+: d.lines := by
  cases d with
  | synthetic lambda => cases lambda <;> exact ⟨_, rfl⟩
  | _ => exact ⟨_, rfl⟩

theorem lines_ne_nil (d : Description) : d.lines ≠ [] := by
  cases d with
  | synthetic lambda => cases lambda <;> exact List.cons_ne_nil _ _
  | _ => exact List.cons_ne_nil _ _

theorem class_injective {c c' : ClassInfo} (named : ∀ p ∈ c.members.properties, p.name ≠ [])
    (other_named : ∀ p ∈ c'.members.properties, p.name ≠ [])
    (same : (Description.class c).lines = (Description.class c').lines) :
    values c = values c' ∧ c.constructors.map Function.entry = c'.constructors.map Function.entry ∧
      c.members.functions.map Function.entry = c'.members.functions.map Function.entry ∧
      c.members.properties.map Property.entry = c'.members.properties.map Property.entry := by
  rw [lines, lines, List.append_assoc, List.append_assoc] at same
  obtain ⟨head, rest⟩ := List.append_inj same rfl
  obtain ⟨constructors, below⟩ := section_injective (function_entries_full c.constructors)
    (function_entries_full c'.constructors) (ends_section _ _ _) (ends_section _ _ _) rest
  rw [classHead_eq, classHead_eq] at head
  have values := labelled_injective rfl rfl (List.cons.inj (List.cons.inj head).2).2
  exact ⟨values, constructors, members_injective named other_named below⟩

theorem contents_of_lines {d e : Description} (named : ∀ p ∈ d.properties, p.name ≠ [])
    (other_named : ∀ p ∈ e.properties, p.name ≠ []) (same : d.lines = e.lines) :
    d.contents = e.contents := by
  have variant : d.contents.variant = e.contents.variant :=
    Variant.opening_unique d.opening_prefix (same ▸ e.opening_prefix)
  cases d with
  | «class» c =>
    cases e with
    | «class» c' =>
      obtain ⟨values, constructors, functions, properties⟩ :=
        class_injective named other_named same
      simp only [contents, values, constructors, functions, properties]
    | synthetic lambda => cases lambda <;> cases variant
    | _ => cases variant
  | fileFacade m =>
    cases e with
    | fileFacade n =>
      obtain ⟨functions, properties⟩ := members_injective named other_named (List.cons.inj same).2
      simp only [contents, functions, properties]
    | synthetic lambda => cases lambda <;> cases variant
    | _ => cases variant
  | synthetic lambda =>
    cases e with
    | synthetic other =>
      cases lambda with
      | none =>
        cases other with
        | none => rfl
        | some g => cases variant
      | some f =>
        cases other with
        | none => cases variant
        | some g =>
          have rest := (List.cons.inj (List.cons.inj same).2).2
          have entry := section_injective (function_entries_full [f]) (function_entries_full [g])
            ends_nil ends_nil (congrArg (· ++ []) rest)
          simp only [contents, List.map_cons, List.map_nil] at entry ⊢
          rw [entry.1]
    | _ => cases lambda <;> cases variant
  | multiFileFacade parts =>
    cases e with
    | multiFileFacade others =>
      have full (ps : List Text) : ∀ t ∈ ps.map ("Class: ".toList ++ ·), t ≠ [] :=
        List.forall_mem_map.mpr fun _ _ => List.cons_ne_nil _ _
      have shown := entries_injective (full parts) (full others) (List.append_cancel_left same)
      have each := (List.map_inj_right fun _ _ => List.append_cancel_left).mp shown
      rw [each]
    | synthetic lambda => cases lambda <;> cases variant
    | _ => cases variant
  | multiFilePart facade m =>
    cases e with
    | multiFilePart other n =>
      obtain ⟨name, rest⟩ := List.cons.inj (List.cons.inj same).2
      obtain ⟨functions, properties⟩ := members_injective named other_named rest
      simp only [contents, List.append_cancel_left name, functions, properties]
    | synthetic lambda => cases lambda <;> cases variant
    | _ => cases variant
  | unknown =>
    cases e with
    | unknown => rfl
    | synthetic lambda => cases lambda <;> cases variant
    | _ => cases variant

/-- A report loses no entry: descriptions with the same report have the same variant, the same
values in the head and the same entries in every section, as they are printed. -/
theorem report_contents {d e : Description} (whole : d.Reportable) (other_whole : e.Reportable)
    (same : d.report = e.report) : d.contents = e.contents := by
  have lines : d.lines = e.lines :=
    Text.joined_injective d.lines_ne_nil e.lines_ne_nil (single_lines whole.single)
      (single_lines other_whole.single) same
  exact contents_of_lines whole.named other_whole.named lines

/-- A class with two aliases, two arguments and no companion. -/
def paired : Description := .class {
  name := "A".toList
  supertypes := [.class "B".toList, .parameter (-1)]
  moduleName := "main".toList
  typeAliases := ["a".toList, "b".toList]
  companion := none
  nestedClasses := []
  enumEntries := []
  constructors := [⟨"<init>".toList, some ⟨"<init>".toList, "()V".toList⟩, []⟩]
  members :=
    { functions := [⟨"f".toList, none, ["x".toList, "y".toList]⟩]
      properties := [⟨"p".toList, some ⟨"p".toList, "I".toList⟩⟩] } }

/-- One alias and one argument, which read like two, and a companion without a name. -/
def unpaired : Description := .class {
  name := "A".toList
  supertypes := [.class "B".toList, .parameter (-1)]
  moduleName := "main".toList
  typeAliases := ["a, b".toList]
  companion := some []
  nestedClasses := []
  enumEntries := []
  constructors := [⟨"<init>".toList, some ⟨"<init>".toList, "()V".toList⟩, []⟩]
  members :=
    { functions := [⟨"f".toList, none, ["x, y".toList]⟩]
      properties := [⟨"q".toList, some ⟨"p".toList, "I".toList⟩⟩] } }

theorem report_contents_paired : paired.Reportable ∧ unpaired.Reportable ∧
    paired.report = unpaired.report ∧ paired ≠ unpaired ∧ paired.contents = unpaired.contents := by
  have whole : paired.Reportable := ⟨by decide, by decide⟩
  have other_whole : unpaired.Reportable := ⟨by decide, by decide⟩
  have same : paired.report = unpaired.report := by decide +kernel
  exact ⟨whole, other_whole, same, by decide, report_contents whole other_whole same⟩

end Description

end SmaliReport
