import TextLines.Line.Splitter

/-!
# Cursors over lines

A `Cursor` is one pass over the lines of a source. It reads at most one line ahead, so that
`hasMore` can be asked any number of times before the line is taken, and it keeps one line buffer,
which shows the last line read until the next is read ahead. It closes the source as soon as the
lines are exhausted.

`walk` is the loop that every user of a cursor runs: take line after line and hand each to a
visitor, until the visitor has seen enough, the lines end, or reading fails.
-/

namespace TextLines

/-- A pass over the lines of a source. -/
structure Cursor (σ : Type) where
  /-- Where the lines come from. -/
  splitter : Splitter σ
  /-- The last line read, or the part of it that had been read when reading failed. -/
  buffer : Bytes := []
  /-- Whether the buffer holds a line that has not been taken. -/
  pending : Bool := false
  /-- Whether `hasMore` has to read to give an answer. -/
  mustRead : Bool := true

namespace Cursor

variable {σ : Type} [Source σ]

/-- Whether the source has been released. -/
def isClosed (c : Cursor σ) : Bool :=
  c.splitter.isClosed

/-- The bytes consumed from the file underneath, until the release if that is past. -/
def bytesRead (c : Cursor σ) : Nat :=
  c.splitter.bytesRead

/-- The source, also when it has been released. -/
def source? (c : Cursor σ) : Option σ :=
  c.splitter.handle.source?

/-- Ends the pass and releases the source. Closing again does nothing. -/
def close (c : Cursor σ) : Option Error × Cursor σ :=
  if c.isClosed then (none, c)
  else
    let (e, splitter) := c.splitter.close
    (e, { c with splitter, pending := false, mustRead := false })

/-- Whether there is another line. Reads ahead if that is not known, and closes at the end. -/
def hasMore (c : Cursor σ) : Except Error Bool × Cursor σ :=
  if !c.mustRead then (.ok c.pending, c)
  else if c.isClosed then (.ok false, { c with pending := false, mustRead := false })
  else
    let r := c.splitter.readLine
    let c := { c with splitter := r.next, buffer := r.line }
    match r.found with
    | .error e => (.error e, c)
    | .ok true => (.ok true, { c with pending := true, mustRead := false })
    | .ok false =>
      match { c with pending := false, mustRead := false }.close with
      | (none, c) => (.ok false, c)
      | (some e, c) => (.error e, c)

/-- Takes the next line. -/
def next (c : Cursor σ) : Except Error Bytes × Cursor σ :=
  match c.hasMore with
  | (.error e, c) => (.error e, c)
  | (.ok false, c) => (.error .noMoreLines, c)
  | (.ok true, c) => (.ok c.buffer, { c with mustRead := true })

/-! ## Walking over lines -/

/-- A bound on the lines still to come. -/
def left (c : Cursor σ) : Nat :=
  2 * c.splitter.left + (c.pending && !c.mustRead).toNat

/-- A line that is taken is paid for from what was left. -/
theorem left_lt_of_hasMore {c c' : Cursor σ} (h : c.hasMore = (.ok true, c')) :
    { c' with mustRead := true }.left < c.left := by
  unfold hasMore at h
  split at h
  · rename_i hm
    simp only [Prod.mk.injEq, Except.ok.injEq] at h
    have hr : c.mustRead = false := by simpa using hm
    rw [← h.2]
    simp [left, h.1, hr]
  · split at h
    · simp at h
    · dsimp only at h
      split at h
      · simp at h
      · rename_i hf
        have := Splitter.readLine_left hf
        simp only [Prod.mk.injEq, true_and] at h
        rw [← h]
        simp only [left, Bool.not_true, Bool.and_false, Bool.toNat_false]
        omega
      · split at h <;> simp at h

/-- What a visitor makes of a line. -/
inductive Visit (α : Type) where
  /-- Go on. -/
  | goOn (value : α)
  /-- Enough. -/
  | stop (value : α)

/-- Why a walk came to its end. -/
inductive Ending where
  /-- There are no more lines. -/
  | exhausted
  /-- The visitor had enough. -/
  | stopped
  /-- Reading failed. -/
  | failed (e : Error)

/-- What a walk came to. -/
structure Walk (α σ : Type) where
  /-- Why it came to its end. -/
  ending : Ending
  /-- What the visitor made of the lines. -/
  value : α
  /-- The cursor afterwards. -/
  cursor : Cursor σ

/-- Takes line after line and hands each to `visit`. -/
def walk {α : Type} (visit : Bytes → α → Visit α) (a : α) (c : Cursor σ) : Walk α σ :=
  match _h : c.hasMore with
  | (.error e, c') => ⟨.failed e, a, c'⟩
  | (.ok false, c') => ⟨.exhausted, a, c'⟩
  | (.ok true, c') =>
    match visit c'.buffer a with
    | .stop a' => ⟨.stopped, a', { c' with mustRead := true }⟩
    | .goOn a' => walk visit a' { c' with mustRead := true }
termination_by c.left
decreasing_by exact left_lt_of_hasMore _h

/-- What a walk came to, if reading did not fail. -/
def Walk.result {α σ : Type} (w : Walk α σ) : Except Error α :=
  match w.ending with
  | .failed e => .error e
  | _ => .ok w.value

end Cursor

end TextLines
