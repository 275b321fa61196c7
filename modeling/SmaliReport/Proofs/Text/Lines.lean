import SmaliReport.Text.Basic

/-!
Texts that are written line by line. A text with a line feed behind each line has just these lines,
less one carriage return at the end of each, and the lines with it are read off the text.
-/

namespace SmaliReport.Text

/-- The rows with a line feed behind each. -/
def ended (rows : List Text) : Text := rows.flatMap (· ++ ['\n'])

@[simp] theorem ended_nil : ended [] = [] := rfl

theorem ended_cons (row : Text) (rows : List Text) (rest : Text) :
    ended (row :: rows) ++ rest = row ++ '\n' :: (ended rows ++ rest) := by
  simp [ended]

theorem splitOn_line {row : Text} (single : '\n' ∉ row) (rest : Text) :
    (row ++ '\n' :: rest).splitOn '\n' = row :: rest.splitOn '\n' := by
  rw [List.splitOn_append_cons_self, List.splitOn_eq_singleton single, List.singleton_append]

theorem splitOn_ended {rows : List Text} (single : ∀ row ∈ rows, '\n' ∉ row) :
    (ended rows).splitOn '\n' = rows ++ [[]] := by
  induction rows with
  | nil => simp
  | cons row rows ih =>
    rw [List.forall_mem_cons] at single
    have shape := ended_cons row rows []
    rw [List.append_nil, List.append_nil] at shape
    rw [shape, splitOn_line single.1, ih single.2, List.cons_append]

theorem ended_injective {rows others : List Text} (single : ∀ row ∈ rows, '\n' ∉ row)
    (single_other : ∀ row ∈ others, '\n' ∉ row) (same : ended rows = ended others) :
    rows = others := by
  have pieces := congrArg (List.splitOn '\n') same
  rw [splitOn_ended single, splitOn_ended single_other] at pieces
  exact List.append_cancel_right pieces

theorem joined_injective {rows others : List Text} (nonempty : rows ≠ []) (other_nonempty : others ≠ [])
    (single : ∀ row ∈ rows, '\n' ∉ row) (single_other : ∀ row ∈ others, '\n' ∉ row)
    (same : joined "\n" rows = joined "\n" others) : rows = others := by
  have pieces : (joined "\n" rows).splitOn '\n' = rows := List.splitOn_intercalate '\n' single nonempty
  rw [← pieces, same]
  exact List.splitOn_intercalate '\n' single_other other_nonempty

theorem lines_line {row : Text} (single : '\n' ∉ row) (rest : Text) :
    lines (row ++ '\n' :: rest) = (['\r'].isSuffixOf? row).getD row :: lines rest := by
  have nonempty : rest.splitOn '\n' ≠ [] := List.splitOn_ne_nil '\n' rest
  rw [lines, lines, splitOn_line single, List.dropLast_cons_of_ne_nil nonempty, List.getLast?_cons,
    List.getLast?_eq_some_getLast nonempty]
  rfl

theorem lines_ended {rows : List Text} (single : ∀ row ∈ rows, '\n' ∉ row) (rest : Text) :
    lines (ended rows ++ rest) =
      rows.map (fun row => (['\r'].isSuffixOf? row).getD row) ++ lines rest := by
  induction rows with
  | nil => rfl
  | cons row rows ih =>
    rw [List.forall_mem_cons] at single
    rw [ended_cons, lines_line single.1, ih single.2, List.map_cons, List.cons_append]

end SmaliReport.Text
