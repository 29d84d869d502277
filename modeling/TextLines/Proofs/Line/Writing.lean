import TextLines.Proofs.Charset.Writing
import TextLines.Proofs.Line.Cut

/-!
# Writing lines

`Line.Written` says in which ways lines of characters can be written one behind the other: each with
a terminator of its own behind it, and without one behind the last line if that is not empty. Only
one thing must not be done. A carriage return and a line feed behind it are one terminator, so a
line that ends in a carriage return cannot be followed by an empty line that ends in a line feed.

Cutting the UTF-8 form of such a text gives the lines again, whatever terminators were chosen
(`cut_utf8_of_written`).
-/

namespace TextLines.Line

open Bytes

/-- What ends a line. -/
inductive Terminator where
  | lineFeed
  | carriageReturn
  /-- A carriage return and a line feed. -/
  | both
  deriving DecidableEq, Repr

/-- The characters of a terminator. -/
def Terminator.text : Terminator → List Char
  | .lineFeed => ['\n']
  | .carriageReturn => ['\r']
  | .both => ['\r', '\n']

/-- The characters of a line do not end it. -/
def Unbroken (line : List Char) : Prop :=
  ∀ c ∈ line, c ≠ '\n' ∧ c ≠ '\r'

instance (line : List Char) : Decidable (Unbroken line) :=
  List.decidableBAll (fun c => c ≠ '\n' ∧ c ≠ '\r') line

/-- The text is a way to write the lines. -/
inductive Written : List (List Char) → List Char → Prop where
  | nil : Written [] []
  /-- A last line that nothing ends. -/
  | last {line : List Char} (hline : Unbroken line) (hne : line ≠ []) : Written [line] line
  /-- A line with its terminator. Behind a carriage return there is no line feed, which could only
  be that of an empty line. -/
  | cons {line text : List Char} {lines : List (List Char)} (terminator : Terminator)
      (hline : Unbroken line) (hrest : Written lines text)
      (happart : terminator = .carriageReturn → text.head? ≠ some '\n') :
      Written (line :: lines) (line ++ (terminator.text ++ text))

/-! ## Characters and bytes -/

theorem utf8EncodeChar_of_lt {c : Char} (h : c.toNat < 0x80) :
    String.utf8EncodeChar c = [UInt8.ofNat c.toNat] := by
  rw [← Charset.encodeUtf8_toNat, Charset.encodeUtf8, if_pos h]

/-- Only the two characters that end lines have bytes that end lines. -/
theorem isTerminator_of_mem {c : Char} (hlf : c ≠ '\n') (hcr : c ≠ '\r') {b : UInt8}
    (h : b ∈ String.utf8EncodeChar c) : isTerminator b = false := by
  rw [isTerminator, Bool.or_eq_false_iff, beq_eq_false_iff_ne, beq_eq_false_iff_ne]
  rcases Nat.lt_or_ge c.toNat 0x80 with hsmall | hlarge
  · rw [utf8EncodeChar_of_lt hsmall] at h
    obtain rfl := List.mem_singleton.mp h
    obtain ⟨hbyte, -⟩ := Charset.toNat_asciiByte hsmall
    refine ⟨fun heq => hlf ?_, fun heq => hcr ?_⟩
    · rw [heq] at hbyte
      exact Char.toNat_inj.mp hbyte.symm
    · rw [heq] at hbyte
      exact Char.toNat_inj.mp hbyte.symm
  · have hb := Charset.le_of_mem_utf8EncodeChar hlarge h
    refine ⟨?_, ?_⟩
    · rintro rfl
      exact absurd hb (by decide)
    · rintro rfl
      exact absurd hb (by decide)

theorem isTerminator_of_unbroken {line : List Char} (h : Unbroken line) :
    ∀ b ∈ utf8 line, isTerminator b = false := by
  intro b hb
  obtain ⟨c, hc, hmem⟩ := List.mem_flatMap.mp hb
  obtain ⟨hlf, hcr⟩ := h c hc
  exact isTerminator_of_mem hlf hcr hmem

/-- A text that does not begin with a line feed does not in UTF-8. -/
theorem dropLf_utf8 {text : List Char} (h : text.head? ≠ some '\n') (afterCr : Bool) :
    dropLf afterCr (utf8 text) = utf8 text := by
  rcases text with _ | ⟨c, text⟩
  · exact dropLf_nil afterCr
  · have hlf : c ≠ '\n' := fun heq => h (congrArg some heq)
    obtain ⟨b, rest, hbytes⟩ := List.exists_cons_of_ne_nil (String.utf8EncodeChar_ne_nil (c := c))
    have hb : b ≠ lf := by
      by_cases hcr : c = '\r'
      · subst hcr
        have hhead : b = cr := (List.cons.inj hbytes).1.symm
        rw [hhead]
        decide
      · have hmem : b ∈ String.utf8EncodeChar c := hbytes ▸ List.mem_cons_self
        have hnot := isTerminator_of_mem hlf hcr hmem
        rintro rfl
        cases hnot
    rw [utf8_cons, hbytes, List.cons_append, dropLf_cons_of_ne hb]

/-! ## Cutting what was written -/

/-- A line in front of its terminator is the first line of a text. -/
theorem cut_utf8_append {line text : List Char} (hline : Unbroken line) (terminator : Terminator)
    (happart : terminator = .carriageReturn → text.head? ≠ some '\n') :
    cut (utf8 (line ++ (terminator.text ++ text))) = utf8 line :: cut (utf8 text) := by
  have hpiece := isTerminator_of_unbroken hline
  rw [utf8_append, utf8_append]
  cases terminator with
  | lineFeed =>
    have hcut := cut_append_terminator hpiece (t := lf) rfl (utf8 text)
    exact hcut
  | carriageReturn =>
    have hcut := cut_append_terminator hpiece (t := cr) rfl (utf8 text)
    rw [dropLf_utf8 (happart rfl)] at hcut
    exact hcut
  | both =>
    have hcut := cut_append_terminator hpiece (t := cr) rfl (lf :: utf8 text)
    exact hcut

/-- The lines of what was written are the lines that were to be written. -/
theorem cut_utf8_of_written {lines : List (List Char)} {text : List Char}
    (h : Written lines text) : cut (utf8 text) = lines.map utf8 := by
  induction h with
  | nil => exact cut_nil
  | @last line hline hne =>
    obtain ⟨c, rest, rfl⟩ := List.exists_cons_of_ne_nil hne
    have hbytes : utf8 (c :: rest) ≠ [] := by
      rw [utf8_cons]
      exact List.append_ne_nil_of_left_ne_nil String.utf8EncodeChar_ne_nil _
    rw [cut_of_unterminated (isTerminator_of_unbroken hline), if_neg hbytes]
    rfl
  | cons terminator hline _ happart ih =>
    rw [cut_utf8_append hline terminator happart, ih, List.map_cons]

end TextLines.Line
