import TextLines.Source.Basic

/-!
# Counting what is asked of a source

`Counted` passes everything on to the source inside and keeps the number of reads and of closes.
The counts show what cannot be seen in the data: that nothing is read ahead of need, and that a
source is released exactly once.
-/

namespace TextLines

/-- A source with the number of reads and closes that were asked of it. -/
structure Counted (σ : Type) where
  /-- The source that answers. -/
  inner : σ
  /-- How often `read` was called. -/
  reads : Nat := 0
  /-- How often `close` was called. -/
  closes : Nat := 0

namespace Counted

variable {σ : Type} [Source σ]

/-- Counts the call and lets the source inside answer. -/
def read (n : Nat) (s : Counted σ) : Except Error Bytes × Counted σ :=
  let (r, inner) := Source.read n s.inner
  (r, { s with inner, reads := s.reads + 1 })

/-- Counts the call and closes the source inside. -/
def close (s : Counted σ) : Option Error × Counted σ :=
  let (e, inner) := Source.close s.inner
  (e, { s with inner, closes := s.closes + 1 })

instance : Source (Counted σ) where
  read := read
  close := close
  bytesRead s := Source.bytesRead s.inner
  left s := Source.left s.inner
  read_length := by
    intro n s bs s' h
    simp only [read, Prod.mk.injEq] at h
    exact Source.read_length (Prod.ext h.1 rfl)
  read_left := by
    intro n s bs s' h
    simp only [read, Prod.mk.injEq] at h
    obtain ⟨h, rfl⟩ := h
    exact Source.read_left (Prod.ext h rfl)

end Counted

end TextLines
