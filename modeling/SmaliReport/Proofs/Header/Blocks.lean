import SmaliReport.Header
import SmaliReport.Proofs.Region.Search

/-! Headers of files with many annotations. The opening mark ends within the type, so it stands in
the first line of each runtime annotation of a type that starts with `Lkotlin`. The first of these
annotations is the one that is read. -/

namespace SmaliReport

namespace Region

open Text (Padded)

/-- A complete annotation. No line of its body holds a mark. -/
structure Block where
  visibility : Text
  type : Text
  opening : Text
  body : List Text
  closing : Text
  word : ' ' ∉ visibility
  dotless : '.' ∉ visibility ++ type
  opens : Padded (".annotation ".toList ++ visibility ++ ' ' :: type ++ [';']) opening
  inner : ∀ line ∈ body,
    Text.contains openingMark line = false ∧ Text.contains closingMark line = false
  closes : Padded closingMark closing

def Block.lines (b : Block) : List Text := b.opening :: (b.body ++ [b.closing])

/-- A runtime annotation of a type that starts as those of the `kotlin` packages do. -/
def Block.Kotlin (b : Block) : Prop :=
  b.visibility = "runtime".toList ∧ "Lkotlin".toList <+: b.type

def Block.Metadata (b : Block) : Prop :=
  b.visibility = "runtime".toList ∧ b.type = "Lkotlin/Metadata".toList

/-- A file is made of annotations and of lines without the opening mark. -/
inductive Piece where
  | block (b : Block)
  | line (l : Text) (quiet : Text.contains openingMark l = false)

def Piece.lines : Piece → List Text
  | .block b => b.lines
  | .line l _ => [l]

theorem kotlin_of_metadata (b : Block) (metadata : b.Metadata) : b.Kotlin := by
  obtain ⟨runtime, type⟩ := metadata
  exact ⟨runtime, type ▸ ⟨"/Metadata".toList, rfl⟩⟩

theorem openingMark_words :
    openingMark =
      '.' :: ("annotation ".toList ++ ("runtime".toList ++ ' ' :: "Lkotlin".toList)) := by
  decide

/-- The first line of an annotation holds the opening mark by its visibility and type alone. -/
theorem opening_marked_iff (b : Block) : Text.contains openingMark b.opening = true ↔ b.Kotlin := by
  obtain ⟨lead, trail, hl, ht, shape⟩ := b.opens
  have line : b.opening = lead ++
      '.' :: ("annotation ".toList ++ (b.visibility ++ ' ' :: (b.type ++ ';' :: trail))) := by
    rw [shape, show ".annotation ".toList = '.' :: "annotation ".toList by decide]
    simp only [List.append_assoc, List.cons_append, List.nil_append]
  rw [Text.contains_iff, line, openingMark_words]
  constructor
  · rintro ⟨s, t, h⟩
    -- Both sides have one dot, and what follows it has the same first word.
    have behind :
        '.' ∉ "annotation ".toList ++ (b.visibility ++ ' ' :: (b.type ++ ';' :: trail)) := by
      have clean := b.dotless
      have back := Text.not_mem_of_blank trail ht '.' (by decide)
      simp only [List.mem_append, List.mem_cons, not_or] at clean ⊢
      exact ⟨by decide, clean.1, by decide, clean.2, by decide, back⟩
    rw [List.append_assoc, List.cons_append] at h
    obtain rfl : s = lead :=
      Text.split_unique lead _ s _ '.' (Text.not_mem_of_blank lead hl '.' (by decide)) behind h
    have rest : "runtime".toList ++ ' ' :: ("Lkotlin".toList ++ t) =
        b.visibility ++ ' ' :: (b.type ++ ';' :: trail) := by
      have tails := (List.cons.inj (List.append_cancel_left h)).2
      rw [List.append_assoc, List.append_assoc] at tails
      exact List.append_cancel_left tails
    have cut := Text.cut_append ' ' "runtime".toList ("Lkotlin".toList ++ t) (by decide)
    rw [rest, Text.cut_append ' ' b.visibility _ b.word] at cut
    obtain ⟨runtime, type⟩ := Prod.mk.inj (Option.some.inj cut)
    exact ⟨runtime, Text.prefix_split _ b.type trail ';' (by decide) ⟨t, type.symm⟩⟩
  · rintro ⟨runtime, more, type⟩
    refine ⟨lead, more ++ ';' :: trail, ?_⟩
    rw [runtime, ← type]
    simp only [List.append_assoc, List.cons_append]

theorem closing_unmarked (b : Block) : Text.contains openingMark b.closing = false := by
  obtain ⟨lead, trail, hl, ht, shape⟩ := b.closes
  obtain ⟨front, back⟩ := not_mem_padding lead trail hl ht 'L' (by decide)
  rw [Text.contains_eq_false_iff, shape]
  apply Text.not_infix_of_not_mem _ _ 'L' (by decide)
  simp only [List.mem_append, not_or]
  exact ⟨⟨front, by decide⟩, back⟩

theorem piece_unmarked (piece : Piece) (other : ∀ b, piece = .block b → ¬ b.Kotlin) :
    ∀ line ∈ piece.lines, Text.contains openingMark line = false := by
  cases piece with
  | line line quiet => exact List.forall_mem_singleton.mpr quiet
  | block b =>
    have opening : Text.contains openingMark b.opening = false :=
      Bool.eq_false_iff.mpr fun marked => other b rfl ((opening_marked_iff b).mp marked)
    intro line member
    rcases List.mem_cons.mp member with rfl | member
    · exact opening
    · rcases List.mem_append.mp member with member | member
      · exact (b.inner line member).1
      · exact List.mem_singleton.mp member ▸ closing_unmarked b

/-- The region of a file is the body of its first runtime annotation of the `kotlin` packages. -/
theorem ofSmali_pieces (smali : Text) (before : List Piece) (b : Block) (after : List Text)
    (lines : smali.lines = before.flatMap Piece.lines ++ (b.lines ++ after)) (kotlin : b.Kotlin)
    (earlier : ∀ other, .block other ∈ before → ¬ other.Kotlin) : ofSmali smali = b.body := by
  have quiet : ∀ line ∈ before.flatMap Piece.lines, Text.contains openingMark line = false := by
    intro line member
    obtain ⟨piece, known, hl⟩ := List.mem_flatMap.mp member
    exact piece_unmarked piece (fun other same => earlier other (same ▸ known)) line hl
  have closes : Text.contains closingMark b.closing = true := by
    obtain ⟨lead, trail, _, _, shape⟩ := b.closes
    exact (Text.contains_iff _ _).mpr ⟨lead, trail, shape.symm⟩
  have shape : b.lines ++ after = b.opening :: (b.body ++ b.closing :: after) := by
    simp [Block.lines]
  rw [ofSmali, lines, shape]
  exact between_block openingMark closingMark _ b.body after b.opening b.closing quiet
    ((opening_marked_iff b).mpr kotlin) (fun line hl => (b.inner line hl).2) closes

end Region

namespace Header

open Region

/-- The metadata annotation is read as if it stood alone, wherever it stands in the file, if no
other runtime annotation of the `kotlin` packages stands before it. -/
theorem ofSmali_metadata (smali alone : Text) (before after : List Piece) (b : Block)
    (metadata : b.Metadata)
    (whole : smali.lines = (before ++ .block b :: after).flatMap Piece.lines)
    (single : alone.lines = b.lines)
    (earlier : ∀ other, .block other ∈ before → ¬ other.Kotlin) :
    ofSmali? smali = ofSmali? alone := by
  have kotlin := kotlin_of_metadata b metadata
  have first : smali.lines =
      before.flatMap Piece.lines ++ (b.lines ++ after.flatMap Piece.lines) := by
    rw [whole, List.flatMap_append, List.flatMap_cons]
    rfl
  have found := ofSmali_pieces smali before b _ first kotlin earlier
  have same := ofSmali_pieces alone [] b [] (by simpa using single) kotlin nofun
  rw [ofSmali?, ofSmali?, found, same]

/-- An annotation with nothing around its first and its last line. -/
def flush (visibility type : Text) (body : List Text) (word : ' ' ∉ visibility)
    (dotless : '.' ∉ visibility ++ type)
    (inner : ∀ line ∈ body,
      Text.contains openingMark line = false ∧ Text.contains closingMark line = false) : Block where
  visibility
  type
  opening := ".annotation ".toList ++ visibility ++ ' ' :: type ++ [';']
  body
  closing := closingMark
  word
  dotless
  opens := ⟨[], [], nofun, nofun, by simp⟩
  inner
  closes := ⟨[], [], nofun, nofun, by simp⟩

/-- A part of a class as its metadata states it. -/
def part : Block :=
  flush "runtime".toList "Lkotlin/Metadata".toList
    ["    k = 0x4".toList, "    d1 = \x7b".toList, "        \"part\"".toList, "    \x7d".toList]
    (by decide) (by decide) (by decide)

def deprecated : Block :=
  flush "runtime".toList "Lkotlin/Deprecated".toList ["    message = \"gone\"".toList]
    (by decide) (by decide) (by decide)

def signature : Block :=
  flush "system".toList "Lkotlin/Signature".toList ["    value = \x7b \"()V\" \x7d".toList]
    (by decide) (by decide) (by decide)

def classLine : Piece := .line ".class LA;".toList (by decide)

def written (pieces : List Piece) : Text :=
  (pieces.flatMap Piece.lines).flatMap (· ++ ['\n'])

theorem not_kotlin_signature : ∀ other, .block other ∈ [classLine, .block signature] →
    ¬ other.Kotlin := by
  intro other member
  simp only [classLine, List.mem_cons, reduceCtorEq, Piece.block.injEq, List.not_mem_nil, or_false,
    false_or] at member
  rintro ⟨runtime, _⟩
  rw [member] at runtime
  exact absurd runtime (by decide)

theorem lines_part : (written [.block part]).lines = part.lines := by decide +kernel

theorem ofSmali_part : ofSmali? (written [.block part]) =
    some { kind := 4, data1 := ["part".toList], data1_ne_nil := nofun } := by
  decide +kernel

theorem ofSmali_metadata_part :
    ofSmali? (written [classLine, .block signature, .block part, .block deprecated]) =
      ofSmali? (written [.block part]) ∧
    ofSmali? (written [.block part]) =
      some { kind := 4, data1 := ["part".toList], data1_ne_nil := nofun } :=
  ⟨ofSmali_metadata _ _ [classLine, .block signature] [.block deprecated] part ⟨rfl, rfl⟩
    (by decide +kernel) lines_part not_kotlin_signature, ofSmali_part⟩

/-- A runtime annotation of another type of the `kotlin` package hides the only metadata. -/
theorem ofSmali_hidden :
    (∀ b, .block b ∈ [classLine, .block deprecated, .block part] → b.Metadata → b = part) ∧
    part.Metadata ∧
    (written [classLine, .block deprecated, .block part]).lines =
      [classLine, .block deprecated, .block part].flatMap Piece.lines ∧
    (written [.block part]).lines = part.lines ∧
    ofSmali? (written [classLine, .block deprecated, .block part]) = none ∧
    ofSmali? (written [.block part]) =
      some { kind := 4, data1 := ["part".toList], data1_ne_nil := nofun } := by
  refine ⟨?_, ⟨rfl, rfl⟩, by decide +kernel, lines_part, by decide +kernel, ofSmali_part⟩
  intro b member metadata
  simp only [classLine, List.mem_cons, reduceCtorEq, Piece.block.injEq, List.not_mem_nil, or_false,
    false_or] at member
  rcases member with rfl | rfl
  · exact absurd metadata.2 (by decide)
  · rfl

end Header

end SmaliReport
