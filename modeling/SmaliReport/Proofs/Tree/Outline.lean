import SmaliReport.Tree.Preview
import SmaliReport.Proofs.Text.Lines
import SmaliReport.Proofs.Tree.Merge

/-!
What a preview shows of a tree. A line of a child begins with a branch, and all lines below it begin
with what hangs behind the branch, so the lines of one child are told from those of the next by
their first character, whatever the names are made of.
-/

namespace SmaliReport.Tree

/-- A tree without the headers and reports of its leaves. -/
inductive Outline where
  | leaf (name : Text)
  | dir (name : Text) (children : List Outline)

/-- No name in the tree has a line feed. -/
inductive Unbroken : Tree → Prop where
  | leaf {l : Leaf} : '\n' ∉ l.name → Unbroken (.leaf l)
  | dir {name : Text} {children : List Tree} :
      '\n' ∉ name → (∀ t ∈ children, Unbroken t) → Unbroken (.dir name children)

mutual

def outline : Tree → Outline
  | .leaf l => .leaf l.name
  | .dir name children => .dir name (outlines children)

def outlines : List Tree → List Outline
  | [] => []
  | t :: rest => outline t :: outlines rest

end

mutual

/-- How many leaves and directories the tree has, itself included. -/
def nodes : Tree → Nat
  | .leaf _ => 1
  | .dir _ children => nodesOf children + 1

def nodesOf : List Tree → Nat
  | [] => 0
  | t :: rest => nodes t + nodesOf rest

end

section Layout

variable {first later : String}

theorem hang_cons (first later : String) (line : Text) (rest : List Text) :
    hang first later (line :: rest) =
      (first.toList ++ line) :: rest.map (later.toList ++ ·) := rfl

theorem length_hang (lines : List Text) : (hang first later lines).length = lines.length := by
  cases lines with
  | nil => rfl
  | cons line rest => rw [hang_cons, List.length_cons, List.length_cons, List.length_map]

theorem mem_hang {lines : List Text} {line : Text} (member : line ∈ hang first later lines) :
    ∃ inner ∈ lines, line = first.toList ++ inner ∨ line = later.toList ++ inner := by
  cases lines with
  | nil => cases member
  | cons head rest =>
    rcases List.mem_cons.mp member with rfl | below
    · exact ⟨head, List.mem_cons_self, .inl rfl⟩
    · obtain ⟨inner, there, rfl⟩ := List.mem_map.mp below
      exact ⟨inner, List.mem_cons_of_mem head there, .inr rfl⟩

theorem hung_unique {mark : Char} {behind : Text} {lines others more further : List Text}
    (ends : ∀ line ∈ more.head?, line.head? ≠ some mark)
    (ends_other : ∀ line ∈ further.head?, line.head? ≠ some mark)
    (same : lines.map (mark :: behind ++ ·) ++ more = others.map (mark :: behind ++ ·) ++ further) :
    lines = others ∧ more = further := by
  induction lines generalizing others with
  | nil =>
    cases others with
    | nil => exact ⟨rfl, same⟩
    | cons other others =>
      obtain rfl : more = _ := same
      exact absurd rfl (ends _ rfl)
  | cons line lines ih =>
    cases others with
    | nil =>
      obtain rfl : _ = further := same
      exact absurd rfl (ends_other _ rfl)
    | cons other others =>
      obtain ⟨head, tail⟩ := List.cons.inj same
      obtain ⟨rfl, rest⟩ := ih tail
      exact ⟨congrArg (· :: lines) (List.append_cancel_left head), rest⟩

theorem previewLines_eq (coloured : Bool) (t : Tree) :
    previewLines coloured t = label coloured t :: childLines coloured t.children := by
  cases t <;> rfl

theorem childLines_last (coloured : Bool) (t : Tree) :
    childLines coloured [t] = hang "└─ " "   " (previewLines coloured t) := by
  rw [childLines]

theorem childLines_more (coloured : Bool) (t next : Tree) (rest : List Tree) :
    childLines coloured (t :: next :: rest) =
      hang "├─ " "│  " (previewLines coloured t) ++ childLines coloured (next :: rest) := by
  rw [childLines]
  exact nofun

/-- A branch shows whether its child is the last one. -/
theorem head_childLines (coloured : Bool) (t : Tree) (rest : List Tree) :
    ∃ line lines, childLines coloured (t :: rest) =
      ((if rest = [] then '└' else '├') :: line) :: lines := by
  cases rest with
  | nil =>
    rw [childLines_last, previewLines_eq, hang_cons]
    exact ⟨_, _, rfl⟩
  | cons next rest =>
    rw [childLines_more, previewLines_eq, hang_cons]
    exact ⟨_, _, rfl⟩

theorem childLines_branch (coloured : Bool) (ts : List Tree) :
    ∀ line ∈ (childLines coloured ts).head?, line.head? ≠ some '│' := by
  cases ts with
  | nil => exact nofun
  | cons t rest =>
    obtain ⟨line, lines, branch⟩ := head_childLines coloured t rest
    rw [branch, List.head?_cons]
    rintro _ ⟨⟩
    split <;> simp

end Layout

section Injective

theorem label_eq_iff (s t : Tree) :
    label false s = label false t ↔ s.isDir = t.isDir ∧ s.name = t.name := by
  have shape (t : Tree) : label false t = t.name ++ if t.isDir then ['/'] else ".txt".toList := by
    cases t <;> rfl
  have last (t : Tree) : (label false t).getLast? = some (if t.isDir then '/' else 't') := by
    cases t <;> simp [label, isDir]
  constructor
  · intro same
    have ends := congrArg List.getLast? same
    rw [last, last, Option.some.injEq] at ends
    have kinds : s.isDir = t.isDir := by
      cases first : s.isDir <;> cases second : t.isDir <;> simp [first, second] at ends ⊢
    rw [shape, shape, kinds] at same
    exact ⟨kinds, List.append_cancel_right same⟩
  · rintro ⟨kinds, names⟩
    rw [shape, shape, kinds, names]

/-- The lines of one child end where a line begins otherwise than they do. -/
theorem hang_unique {first later : String} {mark : Char} {behind : Text}
    (shape : later.toList = mark :: behind) {lines others more further : List Text}
    (nonempty : lines ≠ []) (nonempty_other : others ≠ [])
    (ends : ∀ line ∈ more.head?, line.head? ≠ some mark)
    (ends_other : ∀ line ∈ further.head?, line.head? ≠ some mark)
    (same : hang first later lines ++ more = hang first later others ++ further) :
    lines = others ∧ more = further := by
  obtain ⟨line, below, rfl⟩ := List.exists_cons_of_ne_nil nonempty
  obtain ⟨other, below_other, rfl⟩ := List.exists_cons_of_ne_nil nonempty_other
  rw [hang_cons, hang_cons, shape] at same
  obtain ⟨head, tail⟩ := List.cons.inj same
  obtain ⟨rfl, rest⟩ := hung_unique ends ends_other tail
  exact ⟨congrArg (· :: below) (List.append_cancel_left head), rest⟩

theorem previewLines_ne_nil (coloured : Bool) (t : Tree) : previewLines coloured t ≠ [] := by
  rw [previewLines_eq]
  exact List.cons_ne_nil _ _

/-- The lines of two rows of children agree child by child. -/
theorem childLines_cons_inj {s t : Tree} {ss ts : List Tree}
    (same : childLines false (s :: ss) = childLines false (t :: ts)) :
    previewLines false s = previewLines false t ∧ childLines false ss = childLines false ts := by
  obtain ⟨_, _, branch⟩ := head_childLines false s ss
  obtain ⟨_, _, branch_other⟩ := head_childLines false t ts
  have first := same
  rw [branch, branch_other] at first
  have marks := (List.cons.inj (List.cons.inj first).1).1
  cases ss with
  | nil =>
    cases ts with
    | nil =>
      rw [childLines_last, childLines_last] at same
      have alone : previewLines false s = previewLines false t ∧ ([] : List Text) = [] :=
        hang_unique rfl (previewLines_ne_nil _ s) (previewLines_ne_nil _ t) nofun nofun
          (by rw [List.append_nil, List.append_nil, same])
      exact ⟨alone.1, rfl⟩
    | cons next ts => simp at marks
  | cons next ss =>
    cases ts with
    | nil => simp at marks
    | cons later ts =>
      rw [childLines_more, childLines_more] at same
      exact hang_unique rfl (previewLines_ne_nil _ s) (previewLines_ne_nil _ t)
        (childLines_branch _ _) (childLines_branch _ _) same

theorem childLines_eq_nil_iff (coloured : Bool) (ts : List Tree) :
    childLines coloured ts = [] ↔ ts = [] := by
  cases ts with
  | nil => exact iff_of_true (by rw [childLines]) rfl
  | cons t rest =>
    obtain ⟨_, _, branch⟩ := head_childLines coloured t rest
    exact iff_of_false (by simp [branch]) (List.cons_ne_nil t rest)

mutual

theorem previewLines_eq_iff : ∀ s t : Tree,
    previewLines false s = previewLines false t ↔ s.outline = t.outline
  | .leaf l, .leaf m => by
    rw [previewLines_eq, previewLines_eq (t := .leaf m), List.cons.injEq, label_eq_iff, outline,
      outline, Outline.leaf.injEq]
    exact ⟨fun same => same.1.2, fun same => ⟨⟨rfl, same⟩, rfl⟩⟩
  | .leaf l, .dir name children => by
    rw [previewLines_eq, previewLines_eq (t := .dir name children), List.cons.injEq, label_eq_iff]
    exact iff_of_false (fun same => nomatch same.1.1) nofun
  | .dir name children, .leaf l => by
    rw [previewLines_eq, previewLines_eq (t := .leaf l), List.cons.injEq, label_eq_iff]
    exact iff_of_false (fun same => nomatch same.1.1) nofun
  | .dir name children, .dir other others => by
    rw [previewLines_eq, previewLines_eq (t := .dir other others), List.cons.injEq, label_eq_iff,
      outline, outline, Outline.dir.injEq, ← childLines_eq_iff children others]
    exact and_congr_left fun _ => and_iff_right rfl

theorem childLines_eq_iff : ∀ ss ts : List Tree,
    childLines false ss = childLines false ts ↔ outlines ss = outlines ts
  | [], [] => iff_of_true rfl rfl
  | [], t :: ts => by
    rw [eq_comm, childLines, childLines_eq_nil_iff]
    exact iff_of_false nofun nofun
  | s :: ss, [] => by
    rw [childLines, childLines_eq_nil_iff]
    exact iff_of_false nofun nofun
  | s :: ss, t :: ts => by
    rw [outlines, outlines, List.cons.injEq, ← previewLines_eq_iff s t, ← childLines_eq_iff ss ts]
    refine ⟨childLines_cons_inj, fun ⟨first, rest⟩ => ?_⟩
    cases ss with
    | nil =>
      obtain rfl : ts = [] := (childLines_eq_nil_iff false ts).mp (rest ▸ by rw [childLines])
      rw [childLines_last, childLines_last, first]
    | cons next ss =>
      cases ts with
      | nil =>
        have no_more : next :: ss = [] :=
          (childLines_eq_nil_iff false _).mp (rest.trans (by rw [childLines]))
        cases no_more
      | cons later ts => rw [childLines_more, childLines_more, first, rest]

end

end Injective

mutual

theorem length_previewLines (coloured : Bool) : ∀ t : Tree,
    (previewLines coloured t).length = t.nodes
  | .leaf l => by rw [previewLines, nodes, List.length_singleton]
  | .dir name children => by
    rw [previewLines, nodes, List.length_cons, length_childLines coloured children]

theorem length_childLines (coloured : Bool) : ∀ ts : List Tree,
    (childLines coloured ts).length = nodesOf ts
  | [] => by rw [childLines, nodesOf, List.length_nil]
  | [t] => by
    rw [childLines_last, length_hang, length_previewLines coloured t, nodesOf, nodesOf,
      Nat.add_zero]
  | t :: next :: rest => by
    rw [childLines_more, List.length_append, length_hang, length_previewLines coloured t,
      length_childLines coloured (next :: rest)]
    rfl

end

/-- Hanging puts no line feed into a line. -/
theorem single_hang {first later : String} {lines : List Text}
    (fixed : '\n' ∉ first.toList ∧ '\n' ∉ later.toList) (single : ∀ line ∈ lines, '\n' ∉ line) :
    ∀ line ∈ hang first later lines, '\n' ∉ line := by
  intro line member
  obtain ⟨inner, there, rfl | rfl⟩ := mem_hang member
  · rw [List.mem_append, not_or]
    exact ⟨fixed.1, single inner there⟩
  · rw [List.mem_append, not_or]
    exact ⟨fixed.2, single inner there⟩

mutual

theorem single_previewLines : ∀ t : Tree, Unbroken t → ∀ line ∈ previewLines false t, '\n' ∉ line
  | .leaf l, unbroken => by
    cases unbroken with
    | leaf named =>
      rw [previewLines, List.forall_mem_singleton]
      change '\n' ∉ l.name ++ ".txt".toList
      rw [List.mem_append, not_or]
      exact ⟨named, by decide⟩
  | .dir name children, unbroken => by
    cases unbroken with
    | dir named each =>
      rw [previewLines, List.forall_mem_cons]
      refine ⟨?_, single_childLines children each⟩
      change '\n' ∉ name ++ ['/']
      rw [List.mem_append, not_or]
      exact ⟨named, by decide⟩

theorem single_childLines : ∀ ts : List Tree, (∀ t ∈ ts, Unbroken t) →
    ∀ line ∈ childLines false ts, '\n' ∉ line
  | [], _ => by
    rw [childLines]
    exact nofun
  | [t], each => by
    rw [childLines_last]
    exact single_hang (by decide) (single_previewLines t (each t List.mem_cons_self))
  | t :: next :: rest, each => by
    rw [List.forall_mem_cons] at each
    rw [childLines_more, List.forall_mem_append]
    exact ⟨single_hang (by decide) (single_previewLines t each.1),
      single_childLines (next :: rest) each.2⟩

end

/-- Two trees have the same preview just if they have the same outline, and a preview has one line
for each node. -/
theorem preview_outline {s t : Tree} (unbroken : Unbroken s) (unbroken_other : Unbroken t) :
    (preview false s = preview false t ↔ s.outline = t.outline) ∧
      (preview false s).lines.length = s.nodes := by
  have single := single_previewLines s unbroken
  have single_other := single_previewLines t unbroken_other
  have written (t : Tree) : preview false t = Text.ended (previewLines false t) := rfl
  refine ⟨?_, ?_⟩
  · rw [← previewLines_eq_iff, written, written]
    exact ⟨Text.ended_injective single single_other, fun same => by rw [same]⟩
  · have lines := Text.lines_ended single []
    rw [List.append_nil] at lines
    rw [written, lines, List.length_append, List.length_map, length_previewLines]
    rfl

/-- Names that look like branches, over two trees of different shape. -/
def branched : Tree :=
  .dir "a/".toList [.dir "├─ b".toList [.leaf (plainLeaf ['c'])], .leaf (plainLeaf "│  d".toList)]

def unbranched : Tree :=
  .dir "a/".toList [.dir "├─ b".toList [.leaf (plainLeaf ['c']), .leaf (plainLeaf "d".toList)]]

theorem preview_outline_branched : Unbroken branched ∧ Unbroken unbranched ∧
    preview false branched ≠ preview false unbranched ∧
    (preview false branched).lines.length = 4 := by
  have unbroken : Unbroken branched := .dir (by decide) (by
    simp only [List.forall_mem_cons]
    exact ⟨.dir (by decide) (by simpa using .leaf (by decide)), .leaf (by decide),
      List.forall_mem_nil _⟩)
  have unbroken_other : Unbroken unbranched := .dir (by decide) (by
    simp only [List.forall_mem_singleton]
    exact .dir (by decide) (by
      simp only [List.forall_mem_cons]
      exact ⟨.leaf (by decide), .leaf (by decide), List.forall_mem_nil _⟩))
  have shown := preview_outline unbroken unbroken_other
  refine ⟨unbroken, unbroken_other, fun same => ?_, shown.2⟩
  have outlines := shown.1.mp same
  simp [branched, unbranched, outline, Tree.outlines] at outlines

end SmaliReport.Tree
