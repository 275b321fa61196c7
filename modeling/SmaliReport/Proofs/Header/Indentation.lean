import SmaliReport.Header
import SmaliReport.Proofs.Region.Search
import SmaliReport.Proofs.Text.Trimming

/-!
Headers of files that are laid out differently. Every search in a region looks for a fragment
without blanks at its ends, and every value is trimmed, so a region and the region of its trimmed
lines state the same header.
-/

namespace SmaliReport

open Text (Solid Padded trim)

namespace Region

theorem between_trimmed {opening closing : Text} (first : Solid opening) (last : Solid closing)
    (lines : List Text) :
    between opening closing (lines.map trim) = (between opening closing lines).map trim := by
  have starts : (fun line => !Text.contains opening line) ∘ trim =
      fun line => !Text.contains opening line := by
    funext line
    rw [Function.comp_apply, Text.contains_trim first]
  have stops : (fun line => !Text.contains closing line) ∘ trim =
      fun line => !Text.contains closing line := by
    funext line
    rw [Function.comp_apply, Text.contains_trim last]
  rw [between, List.dropWhile_map, starts, ← List.map_drop, List.takeWhile_map, stops, between]

theorem cleaned_trim (raw : Text) : cleaned raw.trim = cleaned raw := by
  simp only [cleaned, Text.trim_trim]

theorem single_trimmed (key : Text) (region : Region) :
    single key (region.map trim) = single key region := by
  have starts : (fun line => (key ++ " =".toList).isPrefixOf (trim line)) ∘ trim =
      fun line => (key ++ " =".toList).isPrefixOf (trim line) := by
    funext line
    rw [Function.comp_apply, Text.trim_trim]
  rw [single, List.find?_map, starts, single]
  cases region.find? fun line => (key ++ " =".toList).isPrefixOf (trim line) with
  | none => rfl
  | some line =>
    have visible : Text.isBlank '=' = false := by decide
    have behind := congrArg (Option.map cleaned) (Text.cut_trim visible line)
    simp only [Option.map_map, Function.comp_def, cleaned_trim] at behind
    simp only [Option.map_some, behind]

theorem integer_trimmed (key : Text) (default : Int32) (region : Region) :
    integer key default (region.map trim) = integer key default region := by
  rw [integer, integer, single_trimmed]

theorem solid_opener {key : Text} (solid : Solid key) : Solid (key ++ " = \x7b".toList) := by
  have brace : Solid ['\x7b'] := ⟨⟨'\x7b', rfl, by decide⟩, '\x7b', rfl, by decide⟩
  simpa using Text.solid_ends key " = ".toList ['\x7b'] solid brace

theorem elements_trimmed {key : Text} (solid : Solid key) (default : List Text) (region : Region) :
    elements key default (region.map trim) = elements key default region := by
  have brace : Solid "\x7d".toList := ⟨⟨'\x7d', rfl, by decide⟩, '\x7d', rfl, by decide⟩
  simp only [elements, between_trimmed (solid_opener solid) brace, List.isEmpty_map]
  split
  · rfl
  · rw [List.map_map]
    exact List.map_congr_left fun raw _ => cleaned_trim raw

theorem solid_openingMark : Solid openingMark :=
  ⟨⟨'.', by decide, by decide⟩, 'n', by decide, by decide⟩

theorem solid_closingMark : Solid closingMark :=
  ⟨⟨'.', by decide, by decide⟩, 'n', by decide, by decide⟩

end Region

namespace Header

open Region

theorem version_trimmed {key : Text} (solid : Solid key) (default : List String) (region : Region) :
    ofRegion?.versionOf key default (region.map trim) =
      ofRegion?.versionOf key default region := by
  rw [ofRegion?.versionOf, ofRegion?.versionOf, elements_trimmed solid]

theorem ofRegion_trimmed (region : Region) : ofRegion? (region.map trim) = ofRegion? region := by
  have word (key : Text) (first last : Char) (head : key.head? = some first)
      (tail : key.getLast? = some last)
      (visible : Text.isBlank first = false ∧ Text.isBlank last = false) : Solid key :=
    ⟨⟨first, head, visible.1⟩, last, tail, visible.2⟩
  have d1 := word "d1".toList 'd' '1' rfl rfl (by decide)
  have d2 := word "d2".toList 'd' '2' rfl rfl (by decide)
  have bv := word "bv".toList 'b' 'v' rfl rfl (by decide)
  have mv := word "mv".toList 'm' 'v' rfl rfl (by decide)
  simp only [ofRegion?, integer_trimmed, single_trimmed, elements_trimmed d1, elements_trimmed d2,
    version_trimmed bv, version_trimmed mv]

theorem ofSmali_eq_trimmed (smali : Text) :
    ofSmali? smali = ofRegion? (between openingMark closingMark (smali.lines.map trim)) := by
  rw [between_trimmed solid_openingMark solid_closingMark, ofRegion_trimmed]
  rfl

/-- A header depends on the trimmed lines of its file alone. So it stays when lines are indented
otherwise, get blanks behind them or end with a carriage return and a line feed. -/
theorem ofSmali_trimmed :
    (∀ smali other : Text, smali.lines.map trim = other.lines.map trim →
      ofSmali? smali = ofSmali? other) ∧
    ∀ (lines rows : List Text) (rest : Text), List.Forall₂ Padded lines rows →
      (∀ row ∈ rows, '\n' ∉ row) →
        ofSmali? (Text.ended rows ++ rest) = ofSmali? (Text.ended lines ++ rest) := by
  have same (smali other : Text) (trimmed : smali.lines.map trim = other.lines.map trim) :
      ofSmali? smali = ofSmali? other := by
    rw [ofSmali_eq_trimmed, ofSmali_eq_trimmed, trimmed]
  refine ⟨same, fun lines rows rest padded single => same _ _ ?_⟩
  obtain ⟨single_lines, trims⟩ := Text.padded_rows padded single
  rw [Text.trimmed_lines single, Text.trimmed_lines single_lines, trims]

/-- A facade without any blanks around its lines. -/
def flushLeft : List Text :=
  [".annotation runtime Lkotlin/Metadata;".toList, "k = 0x4".toList, "d1 = \x7b".toList,
    "\"part\",".toList, "\x7d".toList, ".end annotation".toList]

def relaid : List Text :=
  ["\t.annotation runtime Lkotlin/Metadata;\r".toList, "    k = 0x4 \u00A0\r".toList,
    "\u3000d1 = \x7b\r".toList, "\t\t\"part\",\r".toList, "\t\x7d\r".toList,
    ".end annotation \r".toList]

theorem padded_relaid : List.Forall₂ Padded flushLeft relaid :=
  .cons ⟨"\t".toList, "\r".toList, by decide, by decide, rfl⟩
    (.cons ⟨"    ".toList, " \u00A0\r".toList, by decide, by decide, rfl⟩
    (.cons ⟨"\u3000".toList, "\r".toList, by decide, by decide, rfl⟩
    (.cons ⟨"\t\t".toList, "\r".toList, by decide, by decide, rfl⟩
    (.cons ⟨"\t".toList, "\r".toList, by decide, by decide, rfl⟩
    (.cons ⟨[], " \r".toList, by decide, by decide, rfl⟩ .nil)))))

theorem ofSmali_trimmed_relaid :
    (Text.ended relaid).lines.map trim = (Text.ended flushLeft).lines.map trim ∧
    ofSmali? (Text.ended relaid) = ofSmali? (Text.ended flushLeft) ∧
    List.Forall₂ Padded flushLeft relaid ∧ (∀ row ∈ relaid, '\n' ∉ row) ∧
    ofSmali? (Text.ended relaid ++ ".class LA;".toList) =
      ofSmali? (Text.ended flushLeft ++ ".class LA;".toList) ∧
    ofSmali? (Text.ended flushLeft ++ ".class LA;".toList) =
      some { kind := 4, data1 := ["part".toList], data1_ne_nil := nofun } := by
  have trims : (Text.ended relaid).lines.map trim = (Text.ended flushLeft).lines.map trim := by
    decide +kernel
  have single : ∀ row ∈ relaid, '\n' ∉ row := by decide
  exact ⟨trims, ofSmali_trimmed.1 _ _ trims, padded_relaid, single,
    ofSmali_trimmed.2 flushLeft relaid _ padded_relaid single, by decide +kernel⟩

end Header

end SmaliReport
