import SmaliReport.Proofs.FileSystem.Walk

/-!
Paths in a file system with links. How many links were followed to a directory is counted on the way
to what is in it, so that a path through the directory goes on from where the path of the directory
arrives.
-/

namespace SmaliReport

namespace Path

/-- What follows the names in the steps of a path: nothing, or a step that stays in a directory. -/
def Ending (tail : List Name) : Prop := tail = [] ∨ tail = [Path.dot]

theorem steps_parts (path : Path) : ∃ tail, Ending tail ∧ steps path = parts path ++ tail := by
  cases ends : [Path.slash].isSuffixOf path with
  | false => exact ⟨[], .inl rfl, by rw [steps_of_no_slash path ends, List.append_nil]⟩
  | true => exact ⟨[Path.dot], .inr rfl, by rw [steps, if_pos ends, parts]⟩

end Path

namespace FileSystem

/-- The way on behind a link, if one more may be followed. -/
def beyond (fs : FileSystem) (through : Bool) : Nat → Place → List Name → Except FileError Arrival
  | 0 => fun _ _ => .error .tooManyLinks
  | links + 1 => fs.follow through links

theorem follow_eq_walk (fs : FileSystem) (through : Bool) (links : Nat) (place : Place)
    (names : List Name) : fs.follow through links place names =
      fs.walk through links (fs.beyond through links) place names := by
  cases links <;> rfl

@[simp] theorem follow_nil (fs : FileSystem) (through : Bool) (links : Nat) (place : Place) :
    fs.follow through links place [] = .ok ⟨place, links⟩ := by
  rw [follow_eq_walk]
  rfl

/-- A way is told by the kinds of what lies at its places. -/
theorem follow_cons (fs : FileSystem) (through : Bool) (links : Nat) (place : Place) (name : Name)
    (rest : List Name) : fs.follow through links place (name :: rest) =
      match fs.kind? place with
      | none => .error .notFound
      | some .dir =>
        if name = Path.dot then fs.follow through links place rest
        else if name = Path.dots then fs.follow through links place.dropLast rest
        else if 255 < name.length then .error .nameTooLong
        else
          match fs.kind? (place ++ [name]) with
          | none => if rest.isEmpty then .ok ⟨place ++ [name], links⟩ else .error .notFound
          | some (.link target) =>
            if rest.isEmpty && !through then .ok ⟨place ++ [name], links⟩
            else
              fs.beyond through links (if Path.isAbsolute target then [] else place)
                (Path.steps target ++ rest)
          | some _ => fs.follow through links (place ++ [name]) rest
      | some _ => .error .notDirectory := by
  simp only [follow_eq_walk fs through links, walk, kind?]
  cases there : fs.node? place with
  | none => rfl
  | some node =>
    cases node with
    | file bytes => rfl
    | link target => rfl
    | dir entries =>
      have below : fs.node? (place ++ [name]) = entries.lookup name := by
        rw [node?, Node.at?_append, ← node?, there]
        exact Node.at?_child entries name
      simp only [Option.map_some, Node.kind, below]
      cases entries.lookup name with
      | none => rfl
      | some inner => cases inner <;> rfl

theorem follow_ok_dir {fs : FileSystem} {through : Bool} {links : Nat} {place : Place} {name : Name}
    {rest : List Name} {arrival : Arrival}
    (arrives : fs.follow through links place (name :: rest) = .ok arrival) :
    fs.kind? place = some .dir := by
  rw [follow_cons] at arrives
  split at arrives
  · cases arrives
  · assumption
  · cases arrives

/-- All that is there stays, of the same kind. -/
structure Extends (fs later : FileSystem) : Prop where
  here : later.here = fs.here
  kinds : ∀ q kind, fs.kind? q = some kind → later.kind? q = some kind

section Onward

variable {fs later : FileSystem} {mid : Place} {left : Nat} {tail more : List Name}
  (kept : Extends fs later) (dir : fs.kind? mid = some .dir) (ending : Path.Ending tail)
  (through : Bool) (given : more ≠ [] ∨ through = true)

include kept dir ending given

/-- The induction is on the names of the way to the directory; `onward` is for the ways behind links,
which have fewer links left. -/
theorem follow_onward_once (links : Nat)
    (onward : ∀ place names, fs.beyond true links place (names ++ tail) = .ok ⟨mid, left⟩ →
      later.beyond through links place (names ++ more) = later.follow through left mid more)
    (place : Place) (names : List Name)
    (arrives : fs.follow true links place (names ++ tail) = .ok ⟨mid, left⟩) :
    later.follow through links place (names ++ more) = later.follow through left mid more := by
  induction names generalizing place with
  | nil =>
    have ends : fs.follow true links place tail = .ok ⟨place, links⟩ := by
      rcases ending with rfl | rfl
      · rw [follow_nil]
      · rw [follow_cons, follow_ok_dir arrives]
        simp
    rw [List.nil_append, ends] at arrives
    cases arrives
    rfl
  | cons name rest ih =>
    rw [List.cons_append] at arrives ⊢
    have here := follow_ok_dir arrives
    rw [follow_cons, here] at arrives
    rw [follow_cons, kept.kinds place _ here]
    simp only at arrives ⊢
    by_cases dot : name = Path.dot
    · rw [if_pos dot] at arrives ⊢
      exact ih place arrives
    rw [if_neg dot] at arrives ⊢
    by_cases dots : name = Path.dots
    · rw [if_pos dots] at arrives ⊢
      exact ih place.dropLast arrives
    rw [if_neg dots] at arrives ⊢
    by_cases long : 255 < name.length
    · rw [if_pos long] at arrives
      cases arrives
    rw [if_neg long] at arrives ⊢
    cases below : fs.kind? (place ++ [name]) with
    | none =>
      -- a way that ends with a missing name does not end in a directory
      rw [below] at arrives
      simp only at arrives
      split at arrives
      · cases arrives
        rw [below] at dir
        cases dir
      · cases arrives
    | some kind =>
      rw [below] at arrives
      rw [kept.kinds _ kind below]
      cases kind with
      | file bytes => exact ih _ arrives
      | dir => exact ih _ arrives
      | link target =>
        have goes_on : ((rest ++ more).isEmpty && !through) = false := by
          rcases given with given | rfl
          · simp [given]
          · simp
        simp only [Bool.not_true, Bool.and_false, Bool.false_eq_true, if_false] at arrives
        simp only [goes_on, Bool.false_eq_true, if_false]
        rw [← List.append_assoc] at arrives ⊢
        exact onward _ _ arrives

/-- A way that goes through a directory goes on from where the way to the directory ends, with the
links that it has left. -/
theorem follow_onward (links : Nat) (place : Place) (names : List Name)
    (arrives : fs.follow true links place (names ++ tail) = .ok ⟨mid, left⟩) :
    later.follow through links place (names ++ more) = later.follow through left mid more := by
  induction links generalizing place names with
  | zero =>
    exact follow_onward_once kept dir ending through given 0 nofun place names arrives
  | succ links ih =>
    exact follow_onward_once kept dir ending through given (links + 1) ih place names arrives

end Onward

section Directory

variable {fs later : FileSystem} {path : Path} {arrival : Arrival} {entries : List (Name × Node)}

/-- A path to something is one that may be walked. -/
theorem find_ok_cases {node : Node} (found : fs.find path = .ok (arrival, node)) :
    0 ∉ path ∧ path ≠ [] ∧ Path.fits path ∧
      fs.follow true 40 (fs.start path) (Path.steps path) = .ok arrival ∧
      fs.node? arrival.place = some node := by
  cases located : fs.locate true path with
  | error e => simp [find, located, bind, Except.bind] at found
  | ok there =>
    cases lies : fs.node? there.place with
    | none => simp [find, located, lies, bind, Except.bind] at found
    | some there_node =>
      simp only [find, located, lies, bind, Except.bind] at found
      cases found
      rw [locate] at located
      split at located
      · cases located
      · split at located
        · cases located
        · split at located
          · cases located
          · rename_i nul given fits
            exact ⟨nul, given, by simpa using fits, located, lies⟩

/-- A path to a directory still leads to it after things were added. -/
theorem find_extends (kept : Extends fs later)
    (found : fs.find path = .ok (arrival, .dir entries)) :
    ∃ inner, later.find path = .ok (arrival, .dir inner) ∧
      later.node? arrival.place = some (.dir inner) := by
  obtain ⟨nul, given, fits, arrives, lies⟩ := find_ok_cases found
  have dir := (kind?_eq_dir_iff fs arrival.place).mpr ⟨entries, lies⟩
  obtain ⟨inner, lies_later⟩ := (kind?_eq_dir_iff later _).mp (kept.kinds _ _ dir)
  obtain ⟨tail, ending, steps⟩ := Path.steps_parts path
  rw [steps] at arrives
  have again : later.follow true 40 _ (_ ++ tail) = _ :=
    follow_onward kept dir ending true (.inr rfl) 40 _ _ arrives
  have ends : later.follow true arrival.links arrival.place tail = .ok arrival := by
    rcases ending with rfl | rfl
    · rw [follow_nil]
    · rw [follow_cons, kept.kinds _ _ dir]
      simp
  have located : later.locate true path = .ok arrival := by
    rw [locate, if_neg nul, if_neg given, if_neg (by simp [fits]), steps]
    have start : (if Path.isAbsolute path then [] else later.here) = fs.start path := by
      rw [start, kept.here]
    rw [start, again, ends]
  refine ⟨inner, ?_, lies_later⟩
  simp only [find, located, lies_later, bind, Except.bind]

end Directory

end FileSystem

end SmaliReport
