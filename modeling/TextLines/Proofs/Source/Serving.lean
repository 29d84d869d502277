import TextLines.Source.Basic

/-!
# What a source has served

`Served` passes everything on to the source inside and writes down every read: how many bytes were
asked for, and what was given. `Served.bytes` is all that the source has served so far.
-/

namespace TextLines

/-- A read of a source. -/
structure Serving where
  /-- How many bytes were asked for. -/
  asked : Nat
  /-- What was given. -/
  given : Except Error Bytes

namespace Serving

/-- The bytes that a read has given. -/
def bytes (r : Serving) : Bytes :=
  match r.given with
  | .ok bytes => bytes
  | .error _ => []

/-- The bytes that all reads have given. The latest read is the first of the list. -/
def allBytes : List Serving → Bytes
  | [] => []
  | r :: before => allBytes before ++ r.bytes

/-- The reads have come to the end of the source. -/
def Ended (reads : List Serving) : Prop :=
  ∃ r ∈ reads, r.given = .ok []

theorem not_ended_nil : ¬ Ended [] := by
  rintro ⟨r, hr, -⟩
  cases hr

theorem ended_cons {r : Serving} {before : List Serving} :
    Ended (r :: before) ↔ r.given = .ok [] ∨ Ended before := by
  simp [Ended]

end Serving

/-- A source with the reads that were made of it, the latest first. -/
structure Served (σ : Type) where
  /-- The source that answers. -/
  inner : σ
  /-- The reads. -/
  reads : List Serving := []

namespace Served

variable {σ : Type}

/-- All bytes that the source has served. -/
def bytes (s : Served σ) : Bytes :=
  Serving.allBytes s.reads

variable [Source σ]

/-- Lets the source inside answer and writes the read down. -/
def read (n : Nat) (s : Served σ) : Except Error Bytes × Served σ :=
  let (given, inner) := Source.read n s.inner
  (given, { inner, reads := ⟨n, given⟩ :: s.reads })

/-- Closes the source inside. -/
def close (s : Served σ) : Option Error × Served σ :=
  let (failure, inner) := Source.close s.inner
  (failure, { s with inner })

instance : Source (Served σ) where
  read := read
  close := close
  bytesRead s := Source.bytesRead s.inner
  left s := Source.left s.inner
  read_length := by
    intro n s bs s' h
    simp only [read, Prod.mk.injEq] at h
    exact Source.read_length (Prod.ext h.1 rfl)
  read_left := by
    intro n s bs s' h
    simp only [read, Prod.mk.injEq] at h
    obtain ⟨h, rfl⟩ := h
    exact Source.read_left (Prod.ext h rfl)

theorem reads_of_read {n : Nat} {s s' : Served σ} {given : Except Error Bytes}
    (h : Source.read n s = (given, s')) : s'.reads = ⟨n, given⟩ :: s.reads := by
  have hread : s.read n = (given, s') := h
  simp only [read, Prod.mk.injEq] at hread
  rw [← hread.2, ← hread.1]

end Served

end TextLines
