import SmaliReport.Proofs.FileSystem.Kinds
import SmaliReport.Proofs.FileSystem.Names
import SmaliReport.Proofs.Text.Utf8

/-!
The texts of names. A text encodes to a name that has it as its text. Other names have texts too, of
which several may be the same; but what a text has of the characters that mean something in a path
stands in the name, so that a text of a name can be a name in its place.
-/

namespace SmaliReport

namespace Path

@[simp] theorem text_ofText (t : Text) : text (ofText t) = t := Text.ofUtf8Lossy_toUtf8 t

theorem texts_ofText (texts : List Text) : (texts.map ofText).map text = texts := by
  rw [List.map_map, (funext text_ofText : text ∘ ofText = id), List.map_id]

theorem ofText_injective : Function.Injective ofText := Function.LeftInverse.injective text_ofText

@[simp] theorem ofText_inj (t other : Text) : ofText t = ofText other ↔ t = other :=
  ofText_injective.eq_iff

theorem ofText_append (t more : Text) : ofText (t ++ more) = ofText t ++ ofText more :=
  List.flatMap_append

theorem text_append (name : Name) (t : Text) : text (name ++ ofText t) = text name ++ t :=
  Text.ofUtf8Lossy_append name t

theorem text_eq_nil_iff (name : Name) : text name = [] ↔ name = [] :=
  Text.ofUtf8Lossy_eq_nil_iff name

theorem slash_mem_ofText (t : Text) : slash ∈ ofText t ↔ '/' ∈ t :=
  Text.mem_toUtf8_ascii (by decide) t

theorem nul_mem_ofText (t : Text) : 0 ∈ ofText t ↔ '\x00' ∈ t :=
  Text.mem_toUtf8_ascii (by decide) t

theorem ofText_text (name : Name) (whole : '\uFFFD' ∉ text name) : ofText (text name) = name :=
  Text.toUtf8_ofUtf8Lossy name whole

theorem text_eq_append {name : Name} {t more : Text} (whole : '\uFFFD' ∉ more)
    (shown : text name = t ++ more) : ∃ front, name = front ++ ofText more ∧ text front = t :=
  Text.ofUtf8Lossy_eq_append whole shown

theorem shown_eq_iff (name : Name) (t : Text) (whole : '\uFFFD' ∉ t) :
    ofText (text name) = ofText t ↔ name = ofText t := by
  constructor
  · intro same
    rw [← same, ofText_text name (by rwa [ofText_injective same])]
  · rintro rfl
    rw [text_ofText]

theorem shown_eq_dot_iff (name : Name) : ofText (text name) = dot ↔ name = dot :=
  shown_eq_iff name ['.'] (by decide)

theorem shown_eq_dots_iff (name : Name) : ofText (text name) = dots ↔ name = dots :=
  shown_eq_iff name "..".toList (by decide)

theorem shown_eq_nil_iff (name : Name) : ofText (text name) = [] ↔ name = [] :=
  shown_eq_iff name [] (by decide)

theorem text_joined (names : List Name) :
    text (joined names) = ['/'].intercalate (names.map text) := by
  induction names with
  | nil => rfl
  | cons name rest ih =>
    cases rest with
    | nil => simp [joined]
    | cons second rest =>
      have split : joined (name :: second :: rest) = name ++ slash :: joined (second :: rest) := by
        simp [joined, List.intercalate_cons_cons]
      rw [split, text, Text.ofUtf8Lossy_split _ _ (by decide), ← text, ← text, ih]
      simp only [List.map_cons, List.intercalate_cons_cons, List.append_assoc, List.singleton_append]
      rfl

theorem ofText_joined (texts : List Text) :
    ofText (['/'].intercalate texts) = joined (texts.map ofText) := by
  induction texts with
  | nil => rfl
  | cons t rest ih =>
    cases rest with
    | nil => simp [joined]
    | cons second rest =>
      rw [List.intercalate_cons_cons, ofText_append, ofText_append, ih]
      simp only [joined, List.map_cons, List.intercalate_cons_cons]
      rfl

/-- The text of a path has the texts of its names. -/
theorem splitOn_shown (path : Path) : (ofText (text path)).splitOn slash =
    (path.splitOn slash).map fun name => ofText (text name) := by
  have whole : path = joined (path.splitOn slash) := (List.intercalate_splitOn slash).symm
  have given := List.splitOn_ne_nil slash path
  have pieces := slash_not_mem_piece path
  generalize path.splitOn slash = names at whole given pieces
  rw [whole, text_joined, ofText_joined, List.map_map]
  refine List.splitOn_intercalate slash (fun name member => ?_) (by simpa using given)
  obtain ⟨piece, there, rfl⟩ := List.mem_map.mp member
  intro inside
  exact pieces piece there (Text.mem_of_mem_lossy (by decide) ((slash_mem_ofText _).mp inside))

theorem names_shown (path : Path) :
    names (ofText (text path)) = (names path).map fun name => ofText (text name) := by
  rw [names, splitOn_shown, List.filter_map, names]
  congr 1
  refine List.filter_congr fun name _ => ?_
  simp only [Function.comp_apply, ne_eq, shown_eq_nil_iff, shown_eq_dot_iff]

theorem fileName?_shown (path : Path) (unnamed : fileName? path = none) :
    fileName? (ofText (text path)) = none := by
  rw [fileName?, Option.filter_eq_none_iff] at unnamed ⊢
  rw [names_shown, List.getLast?_map]
  intro name last
  obtain ⟨own, there, rfl⟩ := Option.map_eq_some_iff.mp last
  simpa [shown_eq_dots_iff] using unnamed own there

end Path

/-- The text of a name stands for itself in a path as the name does. -/
theorem Node.PlainName.text {name : Name} (plain : PlainName name) :
    PlainName (Path.ofText (Path.text name)) where
  nonempty empty := plain.nonempty ((Path.shown_eq_nil_iff name).mp empty)
  slash member := by
    have shown := (Path.slash_mem_ofText _).mp member
    exact plain.slash (Text.mem_of_mem_lossy (by decide) shown)
  nul member := by
    have shown := (Path.nul_mem_ofText _).mp member
    exact plain.nul (Text.mem_of_mem_lossy (by decide) shown)
  dot same := plain.dot ((Path.shown_eq_dot_iff name).mp same)
  dots same := plain.dots ((Path.shown_eq_dots_iff name).mp same)

end SmaliReport
