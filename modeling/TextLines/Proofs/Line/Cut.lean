import TextLines.Line.Cut

/-!
# Laws of cutting

`Line.cut` is defined byte by byte. The lemmas here give it line by line, which is how everything
that reads a text in pieces meets it:

* `cut_append_terminator`: bytes without a terminator, then a terminator, are the first line, and
  the other lines are those of what follows. Behind a carriage return what follows begins after a
  line feed, if there is one; `dropLf` says so.
* `cut_of_unterminated`: bytes without a terminator are one line, if there are any.
* `cut_append_of_cut_eq_cons`: bytes without a terminator in front of a text go to the front of
  its first line.
-/

namespace TextLines.Line

open Bytes

/-- A text without the line feed at its front that belongs to a carriage return before it. -/
def dropLf (afterCr : Bool) (text : Bytes) : Bytes :=
  match afterCr, text with
  | true, 10 :: rest => rest
  | _, text => text

@[simp] theorem dropLf_false (text : Bytes) : dropLf false text = text := by
  simp [dropLf]

@[simp] theorem dropLf_nil (afterCr : Bool) : dropLf afterCr [] = [] := by
  simp [dropLf]

theorem dropLf_lf_cons (rest : Bytes) : dropLf true (lf :: rest) = rest := rfl

theorem dropLf_cons_of_ne {b : UInt8} (hb : b ≠ lf) (afterCr : Bool) (rest : Bytes) :
    dropLf afterCr (b :: rest) = b :: rest := by
  unfold dropLf
  split
  · rename_i h
    exact absurd (List.cons.inj h).1 hb
  · rfl

/-! ## A terminator at the front -/

@[simp] theorem cut_nil : cut [] = [] := by
  rw [cut]

theorem cut_lf_cons (rest : Bytes) : cut (lf :: rest) = [] :: cut rest := by
  rw [lf, cut]

theorem cut_cr_cons (rest : Bytes) : cut (cr :: rest) = [] :: cut (dropLf true rest) := by
  rcases rest with _ | ⟨b, rest⟩
  · rfl
  · by_cases hb : b = lf
    · subst hb
      rfl
    · rw [dropLf_cons_of_ne hb, cr, cut]
      exact fun _ h => hb (List.cons.inj h).1

theorem cut_cons_of_not_terminator {b : UInt8} (hb : isTerminator b = false) (rest : Bytes) :
    cut (b :: rest) = prepend b (cut rest) := by
  simp only [isTerminator, Bool.or_eq_false_iff, beq_eq_false_iff_ne, ne_eq] at hb
  rw [cut]
  · exact hb.1
  · exact fun _ h => absurd h hb.2
  · exact hb.2

/-! ## A line at the front -/

/-- A line holds nothing that ends a line. -/
def Unterminated (line : Bytes) : Prop :=
  ∀ b ∈ line, isTerminator b = false

/-- A line and the lines behind its terminator. -/
theorem cut_append_terminator {piece : Bytes} {t : UInt8}
    (hpiece : ∀ b ∈ piece, isTerminator b = false) (ht : isTerminator t = true)
    (rest : Bytes) : cut (piece ++ t :: rest) = piece :: cut (dropLf (t == cr) rest) := by
  induction piece with
  | nil =>
    by_cases hlf : t = lf
    · subst hlf
      exact cut_lf_cons rest
    · have hcr : t = cr := by
        simpa [isTerminator, hlf] using ht
      subst hcr
      exact cut_cr_cons rest
  | cons b piece ih =>
    obtain ⟨hb, hrest⟩ := List.forall_mem_cons.mp hpiece
    rw [List.cons_append, cut_cons_of_not_terminator hb, ih hrest, prepend]

/-- Bytes without a terminator are one line, if there are any. -/
theorem cut_of_unterminated {piece : Bytes} (hpiece : ∀ b ∈ piece, isTerminator b = false) :
    cut piece = if piece = [] then [] else [piece] := by
  induction piece with
  | nil => rfl
  | cons b piece ih =>
    obtain ⟨hb, hrest⟩ := List.forall_mem_cons.mp hpiece
    rw [cut_cons_of_not_terminator hb, ih hrest, if_neg (List.cons_ne_nil b piece)]
    by_cases hp : piece = []
    · rw [if_pos hp, hp, prepend]
    · rw [if_neg hp, prepend]

/-- Bytes without a terminator go to the front of the first line of what follows. -/
theorem cut_append_of_cut_eq_cons {piece text line : Bytes} {lines : List Bytes}
    (hpiece : ∀ b ∈ piece, isTerminator b = false) (h : cut text = line :: lines) :
    cut (piece ++ text) = (piece ++ line) :: lines := by
  induction piece with
  | nil => exact h
  | cons b piece ih =>
    obtain ⟨hb, hrest⟩ := List.forall_mem_cons.mp hpiece
    rw [List.cons_append, cut_cons_of_not_terminator hb, ih hrest, prepend, List.cons_append]

/-- Only the empty text has no lines. -/
theorem cut_eq_nil_iff {text : Bytes} : cut text = [] ↔ text = [] := by
  refine ⟨fun h => ?_, fun h => h ▸ cut_nil⟩
  rcases text with _ | ⟨b, rest⟩
  · rfl
  · exfalso
    by_cases hb : isTerminator b = true
    · have := @cut_append_terminator [] b (by simp) hb rest
      rw [List.nil_append, h] at this
      simp at this
    · rw [cut_cons_of_not_terminator (by simpa using hb)] at h
      cases hc : cut rest <;> simp [hc, prepend] at h

/-- Bytes without a terminator at the front of a text are at the front of its first line. -/
theorem exists_cut_append {piece text : Bytes}
    (hpiece : ∀ b ∈ piece, isTerminator b = false) (h : piece ++ text ≠ []) :
    ∃ line lines, cut (piece ++ text) = (piece ++ line) :: lines := by
  rcases hc : cut text with _ | ⟨line, lines⟩
  · have htext := cut_eq_nil_iff.mp hc
    rw [htext, List.append_nil] at h ⊢
    rw [cut_of_unterminated hpiece, if_neg h]
    exact ⟨[], [], by rw [List.append_nil]⟩
  · exact ⟨line, lines, cut_append_of_cut_eq_cons hpiece hc⟩

end TextLines.Line
