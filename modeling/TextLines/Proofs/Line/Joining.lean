import TextLines.Proofs.Line.Cut

/-!
# Joining lines

Lines are put together in two ways. Printing sets a line feed behind each of them, rendering sets
one between neighbours. Either way the lines can be told apart again as long as none of them holds
a terminator (`Line.Unterminated`).

* What is printed is cut into the lines that were printed (`Line.cut_flatMap`).
* What is rendered is split into the lines that were rendered, but for a single empty line, which
  is rendered like no lines at all (`Line.split_intercalate`).
-/

namespace TextLines

open Bytes

namespace Line

variable {lines others : List Bytes}

theorem Unterminated.lf_notMem {line : Bytes} (h : Unterminated line) : lf ∉ line := by
  intro hmem
  cases h lf hmem

/-! ## A line feed behind every line -/

theorem cut_flatMap (h : ∀ line ∈ lines, Unterminated line) :
    cut (lines.flatMap (· ++ [lf])) = lines := by
  induction lines with
  | nil => exact cut_nil
  | cons line lines ih =>
    obtain ⟨hline, hlines⟩ := List.forall_mem_cons.mp h
    rw [List.flatMap_cons, List.append_assoc, List.singleton_append,
      cut_append_terminator hline rfl]
    exact congrArg (line :: ·) (ih hlines)

/-- Different lines do not make the same text. -/
theorem flatMap_eq_iff (h : ∀ line ∈ lines, Unterminated line)
    (h' : ∀ line ∈ others, Unterminated line) :
    lines.flatMap (· ++ [lf]) = others.flatMap (· ++ [lf]) ↔ lines = others := by
  refine ⟨fun heq => ?_, fun heq => heq ▸ rfl⟩
  rw [← cut_flatMap h, heq, cut_flatMap h']

/-! ## A line feed between neighbours -/

/-- The pieces of a text between its line feeds. There are none in the empty text. -/
def split (text : Bytes) : List Bytes :=
  if text = [] then [] else text.splitOn lf

/-- Only no lines and a single empty line are joined to the empty text. -/
theorem intercalate_eq_nil_iff :
    [lf].intercalate lines = [] ↔ lines = [] ∨ lines = [[]] := by
  rcases lines with _ | ⟨line, _ | ⟨other, lines⟩⟩
  · simp
  · simp
  · simp [List.intercalate_cons_cons]

/-- The pieces of joined lines are the lines, but for a single empty line. -/
theorem split_intercalate (h : ∀ line ∈ lines, Unterminated line) :
    split ([lf].intercalate lines) = if lines = [[]] then [] else lines := by
  by_cases hnil : [lf].intercalate lines = []
  · rw [split, if_pos hnil]
    rcases intercalate_eq_nil_iff.mp hnil with rfl | rfl <;> rfl
  · obtain ⟨hne, hsingle⟩ := not_or.mp (mt intercalate_eq_nil_iff.mpr hnil)
    rw [split, if_neg hnil, if_neg hsingle]
    exact List.splitOn_intercalate lf (fun line hline => (h line hline).lf_notMem) hne

/-- Different lines are not joined to the same text, unless they are no lines and a single empty
line. -/
theorem intercalate_eq_iff (h : ∀ line ∈ lines, Unterminated line)
    (h' : ∀ line ∈ others, Unterminated line) :
    [lf].intercalate lines = [lf].intercalate others ↔
      lines = others ∨ (lines = [] ∧ others = [[]]) ∨ (lines = [[]] ∧ others = []) := by
  constructor
  · intro heq
    have hsplit : (if lines = [[]] then [] else lines) = if others = [[]] then [] else others := by
      rw [← split_intercalate h, ← split_intercalate h', heq]
    by_cases hlines : lines = [[]] <;> by_cases hothers : others = [[]]
    · exact .inl (hlines.trans hothers.symm)
    · rw [if_pos hlines, if_neg hothers] at hsplit
      exact .inr (.inr ⟨hlines, hsplit.symm⟩)
    · rw [if_neg hlines, if_pos hothers] at hsplit
      exact .inr (.inl ⟨hsplit, hothers⟩)
    · rw [if_neg hlines, if_neg hothers] at hsplit
      exact .inl hsplit
  · rintro (rfl | ⟨rfl, rfl⟩ | ⟨rfl, rfl⟩) <;> rfl

end Line

end TextLines
