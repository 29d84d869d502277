import Mathlib.Data.List.TakeWhile
import TextLines.Files.Path

/-!
# The names in a path

A path is looked up name by name (`Path.names`). Putting a name below a path adds it to the names of
the path and leaves these as they are (`Path.components_join`, `Path.names_join`), whatever slashes
the path has.

The name is the last component then, and the path is its directory (`Path.fileName_join`,
`Path.parent_join`).

`Path.IsName` is what a component has to be for a directory of its own: it is not empty, it has no
slash, and it is neither `.` nor `..`.
-/

namespace TextLines.Files

open Bytes

namespace Path

/-- The name of something in a directory, rather than of the directory itself or the one above. -/
def IsName (name : Bytes) : Prop :=
  name ≠ [] ∧ isDots name = false ∧ slash ∉ name

instance : DecidablePred IsName := fun _ => inferInstanceAs (Decidable (_ ∧ _))

theorem isDots_eq_true_iff {name : Bytes} :
    isDots name = true ↔ name = [dot] ∨ name = [dot, dot] := by
  rw [isDots, Bool.or_eq_true, beq_iff_eq, beq_iff_eq]

theorem slash_notMem_fileName (path : Bytes) : slash ∉ fileName path := by
  intro h
  rw [fileName, List.mem_reverse] at h
  exact absurd (List.mem_takeWhile_imp h) (by decide)

theorem isAbsolute_of_notMem {name : Bytes} (h : slash ∉ name) : isAbsolute name = false := by
  cases name with
  | nil => rfl
  | cons b rest =>
    have hb : b ≠ slash := Ne.symm (List.ne_of_not_mem_cons h)
    rw [isAbsolute, List.head?_cons, beq_eq_false_iff_ne]
    exact fun heq => hb (Option.some.inj heq)

theorem mem_of_mem_fileName {path : Bytes} {b : UInt8} (h : b ∈ fileName path) : b ∈ path := by
  rw [fileName, List.mem_reverse] at h
  exact List.mem_reverse.mp ((List.takeWhile_sublist _).mem h)

/-- A path without a file name is empty or ends with a slash. -/
theorem eq_of_fileName_eq_nil {path : Bytes} (h : fileName path = []) :
    path = [] ∨ ∃ front, path = front ++ [slash] := by
  rcases path.eq_nil_or_concat with hnil | ⟨front, b, rfl⟩
  · exact .inl hnil
  · refine .inr ⟨front, ?_⟩
    rw [List.concat_eq_append, fileName, List.reverse_append, List.reverse_singleton,
      List.singleton_append, List.takeWhile_cons] at h
    by_cases hb : b = slash
    · rw [hb, List.concat_eq_append]
    · rw [if_pos (bne_iff_ne.mpr hb), List.reverse_cons] at h
      exact absurd h (List.append_ne_nil_of_right_ne_nil _ (List.cons_ne_nil _ _))

/-! ## Names below a path -/

/-- A name comes behind a slash when it is put below a path, unless the path is empty. -/
theorem join_cases (path : Bytes) {name : Bytes} (h : slash ∉ name) :
    (path = [] ∧ join path name = name) ∨
      ∃ front, join path name = front ++ slash :: name ∧
        (path = front ∨ path = front ++ [slash]) := by
  rw [join, isAbsolute_of_notMem h, if_neg Bool.false_ne_true]
  split
  · rename_i hfile
    rcases eq_of_fileName_eq_nil (List.isEmpty_iff.mp hfile) with rfl | ⟨front, rfl⟩
    · exact .inl ⟨rfl, rfl⟩
    · exact .inr ⟨front, by rw [List.append_assoc, List.singleton_append], .inr rfl⟩
  · exact .inr ⟨path, rfl, .inl rfl⟩

theorem join_eq_append (path : Bytes) {name : Bytes} (h : slash ∉ name) :
    ∃ between, join path name = path ++ (between ++ name) ∧ (between = [] ∨ between = [slash]) := by
  rcases join_cases path h with ⟨rfl, hjoin⟩ | ⟨front, hjoin, rfl | rfl⟩
  · exact ⟨[], hjoin, .inl rfl⟩
  · exact ⟨[slash], hjoin, .inr rfl⟩
  · exact ⟨[], by rw [hjoin, List.append_assoc, List.singleton_append, List.nil_append], .inl rfl⟩

/-! ## Components -/

theorem components_of_notMem {name : Bytes} (h : slash ∉ name) (component : Bytes) :
    components component name =
      if component.isEmpty && name.isEmpty then [] else [component.reverse ++ name] := by
  induction name generalizing component with
  | nil => cases component <;> simp [components]
  | cons b name ih =>
    obtain ⟨hb, hname⟩ := not_or.mp (mt List.mem_cons.mpr h)
    rw [components, if_neg (by simpa using Ne.symm hb), ih hname]
    simp

/-- A slash ends a component. -/
theorem components_append_slash (component path rest : Bytes) :
    components component (path ++ slash :: rest) =
      components component path ++ components [] rest := by
  induction path generalizing component with
  | nil =>
    rw [List.nil_append, components, components, if_pos (beq_self_eq_true slash)]
    cases component <;> rfl
  | cons b path ih =>
    rw [List.cons_append, components, components]
    split
    · split
      · exact ih []
      · rw [ih, List.cons_append]
    · exact ih _

/-- A name that is put below a path comes behind the names of the path. -/
theorem components_join (path : Bytes) {name : Bytes} (hne : name ≠ []) (h : slash ∉ name) :
    components [] (join path name) = components [] path ++ [name] := by
  have hname : components [] name = [name] := by
    rw [components_of_notMem h, List.isEmpty_eq_false_iff.mpr hne]
    rfl
  rcases join_cases path h with ⟨rfl, hjoin⟩ | ⟨front, hjoin, rfl | rfl⟩
  · rw [hjoin, hname]
    rfl
  · rw [hjoin, components_append_slash, hname]
  · rw [hjoin, components_append_slash, components_append_slash, hname, components]
    simp

theorem names_join (path : Bytes) {name : Bytes} (hne : name ≠ []) (h : slash ∉ name) :
    names (join path name) = components [] path ++ [name] := by
  obtain ⟨between, hjoin, -⟩ := join_eq_append path h
  have hlast : (join path name).getLast? ≠ some slash := by
    rw [hjoin, List.getLast?_append, List.getLast?_append, List.getLast?_eq_some_getLast hne]
    exact fun hlast => h (Option.some.inj hlast ▸ List.getLast_mem hne)
  rw [names, beq_eq_false_iff_ne.mpr hlast, if_neg Bool.false_ne_true, components_join path hne h]

theorem isAbsolute_join {path name : Bytes} (h : slash ∉ name) :
    isAbsolute (join path name) = isAbsolute path := by
  obtain ⟨between, hjoin, -⟩ := join_eq_append path h
  cases path with
  | nil =>
    have hname : join [] name = name := by
      rw [join, isAbsolute_of_notMem h]
      rfl
    rw [hname, isAbsolute_of_notMem h]
    rfl
  | cons b rest =>
    rw [hjoin]
    rfl

theorem zero_notMem_join {path name : Bytes} (hpath : 0 ∉ path) (hname : 0 ∉ name)
    (h : slash ∉ name) : 0 ∉ join path name := by
  obtain ⟨between, hjoin, hbetween⟩ := join_eq_append path h
  rw [hjoin, List.mem_append, List.mem_append, not_or, not_or]
  refine ⟨hpath, ?_, hname⟩
  rcases hbetween with rfl | rfl
  · exact List.not_mem_nil
  · decide

theorem untilNul_of_notMem {path : Bytes} (h : 0 ∉ path) : untilNul path = path := by
  rw [untilNul, List.takeWhile_eq_self_iff]
  exact fun b hb => bne_iff_ne.mpr fun hzero => h (hzero ▸ hb)

theorem zero_notMem_untilNul (path : Bytes) : 0 ∉ untilNul path := fun h =>
  absurd (List.mem_takeWhile_imp h) (by decide)

/-! ## Last components -/

theorem fileName_of_notMem {name : Bytes} (h : slash ∉ name) : fileName name = name := by
  have hall : name.reverse.takeWhile (· != slash) = name.reverse := by
    rw [List.takeWhile_eq_self_iff]
    exact fun b hb => bne_iff_ne.mpr fun heq => h (heq ▸ List.mem_reverse.mp hb)
  rw [fileName, hall, List.reverse_reverse]

/-- Cutting a path in front of its last slash. -/
theorem cut_append_slash (front : Bytes) {name : Bytes} (h : slash ∉ name) :
    fileName (front ++ slash :: name) = name ∧
      beforeFileName (front ++ slash :: name) = front ++ [slash] := by
  have hreverse : (front ++ slash :: name).reverse =
      name.reverse ++ slash :: front.reverse := by
    rw [List.reverse_append, List.reverse_cons, List.append_assoc, List.singleton_append]
  have hname : ∀ b ∈ name.reverse, (b != slash) = true := fun b hb =>
    bne_iff_ne.mpr fun heq => h (heq ▸ List.mem_reverse.mp hb)
  have hslash : ¬ (slash != slash) = true := by decide
  constructor
  · rw [fileName, hreverse, List.takeWhile_append_of_pos hname,
      List.takeWhile_cons, if_neg hslash, List.append_nil, List.reverse_reverse]
  · rw [beforeFileName, hreverse, List.dropWhile_append_of_pos hname,
      List.dropWhile_cons, if_neg hslash, List.reverse_cons, List.reverse_reverse]

/-- The last component of a path is the name that was put below the rest. -/
theorem fileName_join (path : Bytes) {name : Bytes} (h : slash ∉ name) :
    fileName (join path name) = name := by
  rcases join_cases path h with ⟨-, hjoin⟩ | ⟨front, hjoin, -⟩
  · rw [hjoin, fileName_of_notMem h]
  · rw [hjoin, (cut_append_slash front h).1]

/-- The directory of a name that was put below a path is the path. -/
theorem parent_join {path name : Bytes} (hpath : fileName path ≠ []) (hne : name ≠ [])
    (h : slash ∉ name) : parent (join path name) = path := by
  have hjoin : join path name = path ++ slash :: name := by
    rw [join, isAbsolute_of_notMem h, if_neg Bool.false_ne_true,
      List.isEmpty_eq_false_iff.mpr hpath, if_neg Bool.false_ne_true]
  have hslashes : ¬ (path ++ slash :: name).all (· == slash) = true := by
    obtain ⟨b, hb⟩ := List.exists_mem_of_ne_nil name hne
    rw [List.all_eq_true]
    intro hall
    have heq := beq_iff_eq.mp (hall b (by simp [hb]))
    exact h (heq ▸ hb)
  have htrim : trimSlashes (path ++ [slash]) = path := by
    rcases path.eq_nil_or_concat with rfl | ⟨front, b, rfl⟩
    · exact absurd rfl hpath
    · have hb : ¬ (b == slash) = true := fun heq => hpath <| by
        rw [List.concat_eq_append, beq_iff_eq.mp heq]
        exact (cut_append_slash front List.not_mem_nil).1
      rw [trimSlashes, List.concat_eq_append, List.reverse_append, List.reverse_append,
        List.reverse_singleton, List.reverse_singleton, List.singleton_append,
        List.singleton_append, List.dropWhile_cons, if_pos (beq_self_eq_true slash),
        List.dropWhile_cons, if_neg hb, List.reverse_cons, List.reverse_reverse]
  have hnil : path ≠ [] := by
    rintro rfl
    exact hpath rfl
  rw [hjoin, parent, if_neg hslashes, (cut_append_slash path h).2]
  dsimp only
  rw [htrim, List.isEmpty_eq_false_iff.mpr hnil, Bool.false_and, if_neg Bool.false_ne_true]

end Path

end TextLines.Files
