import SmaliReport.FileSystem.Path

/-!
The names in a path, and what joining a name or taking the parent makes of them.
-/

namespace SmaliReport.Path

/-- The names between slashes, also those that stay in a directory. -/
def parts (path : Path) : List Name := (path.splitOn Path.slash).filter (· ≠ [])

theorem parts_append (path more : Path) :
    parts (path ++ Path.slash :: more) = parts path ++ parts more := by
  simp only [parts, List.splitOn_append_cons_self, List.filter_append]

@[simp] theorem parts_nil : parts [] = [] := rfl

@[simp] theorem nul_ne_slash : (0 : UInt8) ≠ Path.slash := by decide

theorem parts_name (name : Name) (given : name ≠ []) (slash : Path.slash ∉ name) :
    parts name = [name] := by
  rw [parts, List.splitOn_eq_singleton slash, List.filter_cons_of_pos (by simpa using given)]
  rfl

theorem names_eq (path : Path) : names path = (parts path).filter (· ≠ Path.dot) := by
  rw [names, parts, List.filter_filter]
  congr 1
  funext name
  simp [Bool.and_comm]

theorem steps_without_dots (path : Path) : (steps path).filter (· ≠ Path.dot) = names path := by
  rw [steps, List.filter_append, ← parts, ← names_eq]
  split <;> simp

theorem steps_of_no_slash (path : Path) (bare : [Path.slash].isSuffixOf path = false) :
    steps path = parts path := by
  simp [steps, parts, bare]

theorem isSuffixOf_slash (path : Path) :
    [Path.slash].isSuffixOf path = true ↔ ∃ front, path = front ++ [Path.slash] := by
  rw [List.isSuffixOf_iff_suffix]
  exact ⟨fun ⟨front, same⟩ => ⟨front, same.symm⟩, fun ⟨front, same⟩ => ⟨front, same.symm⟩⟩

theorem parts_cons_ne_nil (c : UInt8) (rest : Path) (slash : c ≠ Path.slash) :
    parts (c :: rest) ≠ [] := by
  have apart : (c == Path.slash) = false := by simpa using slash
  rw [parts, List.splitOn_cons_eq_if_modifyHead, apart]
  cases pieces : rest.splitOn Path.slash with
  | nil => exact absurd pieces (List.splitOn_ne_nil Path.slash rest)
  | cons first others => simp

theorem parts_slashes (path slashes : Path) (all : ∀ c ∈ slashes, c = Path.slash) :
    parts (path ++ slashes) = parts path := by
  induction slashes generalizing path with
  | nil => rw [List.append_nil]
  | cons c rest ih =>
    rw [List.forall_mem_cons] at all
    obtain ⟨rfl, all⟩ := all
    rw [parts_append]
    have nothing := ih [] all
    rw [List.nil_append, parts_nil] at nothing
    rw [nothing, List.append_nil]

theorem parts_ne_nil (path : Path) (given : path ≠ [])
    (bare : [Path.slash].isSuffixOf path = false) :
    parts path ≠ [] := by
  induction path with
  | nil => exact absurd rfl given
  | cons c rest ih =>
    by_cases slash : c = Path.slash
    · subst slash
      have skip : parts (Path.slash :: rest) = parts rest := parts_append [] rest
      rw [skip]
      cases rest with
      | nil => cases bare
      | cons d rest =>
        apply ih (by simp)
        cases ends : [Path.slash].isSuffixOf (d :: rest) with
        | false => rfl
        | true =>
          obtain ⟨front, same⟩ := (isSuffixOf_slash _).mp ends
          have longer := (isSuffixOf_slash (Path.slash :: d :: rest)).mpr
            ⟨Path.slash :: front, by rw [same]; rfl⟩
          exact absurd longer (by simp [bare])
    · exact parts_cons_ne_nil c rest slash

theorem steps_ne_nil (path : Path) (given : path ≠ []) : steps path ≠ [] := by
  cases ends : [Path.slash].isSuffixOf path with
  | true => simp [steps, ends]
  | false =>
    rw [steps_of_no_slash path ends]
    exact parts_ne_nil path given ends

theorem fits_append (path more : Path) (long : fits (path ++ more)) : fits path := by
  simp only [fits, List.length_append, decide_eq_true_eq] at long ⊢
  omega

theorem parts_join_relative (base path : Path) (relative : isAbsolute path = false) :
    parts (join base path) = parts base ++ parts path := by
  rw [join, if_neg (by simp [relative])]
  split
  · rename_i bare
    rcases bare with rfl | ends
    · rfl
    · obtain ⟨front, rfl⟩ := (isSuffixOf_slash base).mp ends
      rw [List.append_assoc, List.singleton_append, parts_append, parts_append, parts_nil,
        List.append_nil]
  · exact parts_append base path

theorem fileName?_of_parts {path : Path} {front : List Name} {name : Name}
    (shape : parts path = front ++ [name]) (dot : name ≠ Path.dot) (dots : name ≠ Path.dots) :
    fileName? path = some name := by
  have names : names path = front.filter (· ≠ Path.dot) ++ [name] := by
    rw [names_eq, shape, List.filter_append, List.filter_cons_of_pos (by simpa using dot)]
    rfl
  rw [fileName?, names, List.getLast?_concat, Option.filter_some, if_pos (by simpa using dots)]

section Join

variable (base : Path) (name : Name) (given : name ≠ []) (slash : Path.slash ∉ name)

include slash

theorem relative_name : isAbsolute name = false := by
  cases name with
  | nil => rfl
  | cons c rest =>
    have : Path.slash ≠ c := fun same => slash (same ▸ List.mem_cons_self)
    simpa [isAbsolute, List.isPrefixOf] using this

theorem isAbsolute_join : isAbsolute (join base name) = isAbsolute base := by
  rw [join, if_neg (by simp [relative_name name slash])]
  cases base with
  | nil => simpa [isAbsolute] using relative_name name slash
  | cons c rest => split <;> rfl

theorem join_shape : ∃ front, (front = base ∨ front = base ++ [Path.slash]) ∧
    join base name = front ++ name := by
  rw [join, if_neg (by simp [relative_name name slash])]
  split
  · exact ⟨base, .inl rfl, rfl⟩
  · exact ⟨base ++ [Path.slash], .inr rfl, by simp⟩

theorem fits_join (long : fits (join base name)) : fits base := by
  obtain ⟨front, front_eq, shape⟩ := join_shape base name slash
  rw [shape] at long
  rcases front_eq with rfl | rfl
  · exact fits_append front name long
  · exact fits_append base [Path.slash] (fits_append _ name long)

include given

theorem parts_join : parts (join base name) = parts base ++ [name] := by
  rw [parts_join_relative base name (relative_name name slash), parts_name name given slash]

theorem join_bare : [Path.slash].isSuffixOf (join base name) = false := by
  obtain ⟨front, _, same⟩ := join_shape base name slash
  cases ends : [Path.slash].isSuffixOf (join base name) with
  | false => rfl
  | true =>
    obtain ⟨other, ended⟩ := (isSuffixOf_slash _).mp ends
    have last : name.getLast? = some Path.slash := by
      have := congrArg List.getLast? (same.symm.trans ended)
      rw [List.getLast?_append, List.getLast?_concat] at this
      cases found : name.getLast? with
      | none => exact absurd (List.getLast?_eq_none_iff.mp found) given
      | some c => rwa [found] at this
    exact absurd (List.mem_of_getLast? last) slash

theorem steps_join : steps (join base name) = parts base ++ [name] := by
  rw [steps_of_no_slash _ (join_bare base name given slash), parts_join base name given slash]

theorem names_join (dot : name ≠ Path.dot) : names (join base name) = names base ++ [name] := by
  rw [names_eq, names_eq, parts_join base name given slash, List.filter_append,
    List.filter_cons_of_pos (by simpa using dot)]
  rfl

end Join

theorem slash_not_mem_piece (path : Path) :
    ∀ piece ∈ path.splitOn Path.slash, Path.slash ∉ piece := by
  induction path with
  | nil => simp [List.splitOn_nil]
  | cons c rest ih =>
    rw [List.splitOn_cons_eq_if_modifyHead]
    by_cases slash : c = Path.slash
    · simpa [slash] using ih
    · have apart : (c == Path.slash) = false := by simpa using slash
      rw [apart]
      cases pieces : rest.splitOn Path.slash with
      | nil => exact absurd pieces (List.splitOn_ne_nil Path.slash rest)
      | cons first others =>
        rw [pieces] at ih
        simp only [List.forall_mem_cons] at ih
        refine List.forall_mem_cons.mpr ⟨?_, ih.2⟩
        simp only [List.mem_cons, not_or]
        exact ⟨Ne.symm slash, ih.1⟩

theorem mem_parts {path : Path} {name : Name} (member : name ∈ parts path) :
    name ≠ [] ∧ Path.slash ∉ name := by
  obtain ⟨piece, given⟩ := List.mem_filter.mp member
  exact ⟨by simpa using given, slash_not_mem_piece path name piece⟩

theorem mem_names {path : Path} {name : Name} (member : name ∈ names path) :
    name ≠ [] ∧ Path.slash ∉ name ∧ name ≠ Path.dot := by
  rw [names_eq] at member
  obtain ⟨part, dot⟩ := List.mem_filter.mp member
  exact ⟨(mem_parts part).1, (mem_parts part).2, by simpa using dot⟩

section Joined

variable (entries : List Name) (each : ∀ name ∈ entries, name ≠ [] ∧ Path.slash ∉ name)

include each

theorem splitOn_joined (nonempty : entries ≠ []) :
    (Path.joined entries).splitOn Path.slash = entries :=
  List.splitOn_intercalate Path.slash (fun name member => (each name member).2) nonempty

theorem parts_joined : parts (Path.joined entries) = entries := by
  cases entries with
  | nil => rfl
  | cons first rest =>
    rw [parts, splitOn_joined (first :: rest) each (by simp), List.filter_eq_self]
    intro name member
    simpa using (each name member).1

theorem joined_relative : isAbsolute (Path.joined entries) = false := by
  cases absolute : isAbsolute (Path.joined entries) with
  | false => rfl
  | true =>
    obtain ⟨rest, same⟩ := List.isPrefixOf_iff_prefix.mp absolute
    cases entries with
    | nil => cases same
    | cons first others =>
      have pieces := splitOn_joined (first :: others) each (by simp)
      rw [← same, List.singleton_append, List.splitOn_cons_eq_if_modifyHead] at pieces
      have empty : [] = first := (List.cons.inj pieces).1
      exact absurd empty.symm (each first List.mem_cons_self).1

theorem joined_bare : [Path.slash].isSuffixOf (Path.joined entries) = false := by
  cases ends : [Path.slash].isSuffixOf (Path.joined entries) with
  | false => rfl
  | true =>
    obtain ⟨front, same⟩ := (isSuffixOf_slash _).mp ends
    cases entries with
    | nil => simp [joined] at same
    | cons first others =>
      have pieces := splitOn_joined (first :: others) each (by simp)
      rw [same, List.splitOn_append_cons_self, List.splitOn_nil] at pieces
      have member : [] ∈ first :: others := by simp [← pieces]
      exact absurd rfl (each [] member).1

end Joined

/-- A path that a directory is made by: a slash ends it only where it is all of it. -/
def Tidy (path : Path) : Prop := [Path.slash].isSuffixOf path = false ∨ path = [Path.slash]

/-- The parent has all names but the last, and starts where the path starts. -/
theorem parent?_spec {path above : Path} (parent : parent? path = some above) :
    names path ≠ [] ∧ names above = (names path).dropLast ∧ Tidy above ∧
      (above ≠ [] → isAbsolute above = isAbsolute path) := by
  have each : ∀ name ∈ (names path).dropLast, name ≠ [] ∧ Path.slash ∉ name := fun name member =>
    have names := mem_names (List.dropLast_subset _ member)
    ⟨names.1, names.2.1⟩
  have undotted : (names path).dropLast.filter (· ≠ Path.dot) = (names path).dropLast := by
    rw [List.filter_eq_self]
    intro name member
    simpa using (mem_names (List.dropLast_subset _ member)).2.2
  have parts_above := parts_joined (names path).dropLast each
  unfold parent? at parent
  split at parent
  · cases parent
  · rename_i nonempty
    refine ⟨nonempty, ?_⟩
    split at parent <;> cases parent
    · rename_i absolute
      refine ⟨?_, ?_, fun _ => absolute.symm⟩
      · have skip := parts_append [] (Path.joined (names path).dropLast)
        rw [List.nil_append] at skip
        rw [names_eq, skip, parts_above, parts_nil, List.nil_append, undotted]
      · by_cases root : Path.joined (names path).dropLast = []
        · exact .inr (by rw [root])
        · left
          cases ends : [Path.slash].isSuffixOf (Path.slash :: Path.joined (names path).dropLast) with
          | false => rfl
          | true =>
            obtain ⟨front, same⟩ := (isSuffixOf_slash _).mp ends
            cases front with
            | nil => exact absurd (List.cons.inj same).2 root
            | cons c front =>
              have ended := (isSuffixOf_slash _).mpr ⟨front, (List.cons.inj same).2⟩
              exact absurd ended (by simp [joined_bare _ each])
    · rename_i relative
      refine ⟨by rw [names_eq, parts_above, undotted], .inl (joined_bare _ each), fun _ => ?_⟩
      rw [joined_relative _ each]
      simpa using Eq.symm (by simpa using relative)

end SmaliReport.Path
