import TextLines.Line.Cut
import TextLines.Source.Basic

/-!
# Cutting a source into lines

A `Splitter` owns a source and hands out its lines one at a time. It holds at most one chunk of the
source and asks for the next only when that chunk is used up. A terminator may straddle two chunks:
after a carriage return the splitter remembers to drop a line feed that comes next, and drops it
only when the next line is asked for.

`Handle` is the hold on the source: it may be missing, held, or released, and a released source
stays visible together with the byte count at its release. `Splitter.left` measures what is still
to come; `readLine_left` says that every line handed out makes it smaller, which is what loops over
lines, such as `readAll`, terminate by.
-/

namespace TextLines

open Bytes

/-- The hold on a source. -/
inductive Handle (σ : Type) where
  /-- There never was a source. -/
  | absent
  /-- The source is held and may be read. -/
  | held (source : σ)
  /-- The source has been closed, after this many bytes. -/
  | released (source : σ) (bytesRead : Nat)

namespace Handle

variable {σ : Type}

/-- Whether a source is held. -/
def isHeld : Handle σ → Bool
  | .held _ => true
  | _ => false

/-- The source, also when it has been released. -/
def source? : Handle σ → Option σ
  | .absent => none
  | .held s => some s
  | .released s _ => some s

variable [Source σ]

/-- The bytes consumed so far, or until the release. -/
def bytesRead : Handle σ → Nat
  | .absent => 0
  | .held s => Source.bytesRead s
  | .released _ n => n

/-- A bound on what can still be read. -/
def left : Handle σ → Nat
  | .held s => Source.left s
  | _ => 0

/-- Closes a held source; there is nothing to do for any other. -/
def release : Handle σ → Option Error × Handle σ
  | .held s =>
    let n := Source.bytesRead s
    let (e, s') := Source.close s
    (e, .released s' n)
  | h => (none, h)

end Handle

/-- A source together with the position inside its lines. -/
structure Splitter (σ : Type) where
  /-- The source that is being cut. -/
  handle : Handle σ
  /-- How many bytes to ask for at a time; zero counts as one. -/
  chunkBytes : Nat := 65536
  /-- The longest line that is accepted; zero accepts all. -/
  maxLineBytes : Nat := 0
  /-- What has been read and not yet consumed. -/
  chunk : Bytes := []
  /-- Whether the source has reported its end. -/
  ended : Bool := false
  /-- Whether the last line ended in a carriage return, so that a line feed belongs to it. -/
  afterCr : Bool := false
  /-- How many lines have been handed out. -/
  lines : Nat := 0

/-- What asking for a line gave. -/
structure Splitter.Reading (σ : Type) where
  /-- Whether there was a line, or why that is not known. -/
  found : Except Error Bool
  /-- The line; after a failure the part of it that had been read. -/
  line : Bytes
  /-- The splitter afterwards. -/
  next : Splitter σ

namespace Splitter

variable {σ : Type} [Source σ]

/-- Whether there is no source to read from any more. -/
def isClosed (s : Splitter σ) : Bool :=
  !s.handle.isHeld

/-- The bytes consumed from the file underneath. -/
def bytesRead (s : Splitter σ) : Nat :=
  s.handle.bytesRead

/-- A bound on the bytes still to be cut. -/
def left (s : Splitter σ) : Nat :=
  s.chunk.length + s.handle.left

/-- Asks the source for the next chunk; false if there is none. A source that has reported its end
is not asked again. -/
def refill (s : Splitter σ) : Except Error Bool × Splitter σ :=
  match s.handle with
  | .held src =>
    if s.ended then (.ok false, s)
    else
      match Source.read (max s.chunkBytes 1) src with
      | (.ok bs, src') =>
        (.ok !bs.isEmpty, { s with handle := .held src', chunk := bs, ended := bs.isEmpty })
      | (.error e, src') => (.error e, { s with handle := .held src' })
  | _ => (.ok false, s)

/-- Whether a line of this many bytes is over the limit. -/
def overLimit (s : Splitter σ) (size : Nat) : Bool :=
  s.maxLineBytes != 0 && s.maxLineBytes < size

theorem refill_left {s s' : Splitter σ} (h : s.refill = (.ok true, s')) :
    s'.handle.left < s.handle.left ∧ s'.left ≤ s.handle.left := by
  unfold refill at h
  split at h
  · rename_i src hs
    split at h
    · simp at h
    · split at h
      · rename_i bs src' hr
        simp only [Prod.mk.injEq, Except.ok.injEq, Bool.not_eq_eq_eq_not, Bool.not_true] at h
        obtain ⟨hne, rfl⟩ := h
        have hl := Source.read_left hr
        have : 0 < bs.length := by
          cases bs with
          | nil => simp at hne
          | cons b bs => simp
        simp only [left, hs, Handle.left]
        omega
      · simp at h
  · simp at h

/-- Reads on in a line of which `acc` has been read, last byte first, `size` bytes in all. -/
def scan (s : Splitter σ) (acc : Bytes) (size : Nat) : Reading σ :=
  match _hc : s.chunk with
  | [] =>
    match _hr : s.refill with
    | (.ok true, s') => scan s' acc size
    | (.ok false, s') =>
      if acc.isEmpty then ⟨.ok false, [], s'⟩
      else ⟨.ok true, acc.reverse, { s' with lines := s'.lines + 1 }⟩
    | (.error e, s') => ⟨.error e, acc.reverse, s'⟩
  | b :: rest =>
    if s.afterCr && b == lf then scan { s with chunk := rest, afterCr := false } acc size
    else
      let piece := s.chunk.takeWhile (!Line.isTerminator ·)
      let size' := size + piece.length
      if s.overLimit size' then
        ⟨.error (.reading (.lineTooLong (s.lines + 1) s.maxLineBytes)), acc.reverse,
          { s with afterCr := false }⟩
      else
        match s.chunk.dropWhile (!Line.isTerminator ·) with
        | [] => scan { s with chunk := [], afterCr := false } (piece.reverse ++ acc) size'
        | t :: tail' =>
          ⟨.ok true, acc.reverse ++ piece,
            { s with chunk := tail', afterCr := t == cr, lines := s.lines + 1 }⟩
termination_by (s.handle.left, s.chunk.length)
decreasing_by
  · exact Prod.Lex.left _ _ (refill_left _hr).1
  · apply Prod.Lex.right; simp [_hc]
  · apply Prod.Lex.right; simp [_hc]

/-- The next line. -/
def readLine (s : Splitter σ) : Reading σ :=
  scan s [] 0

theorem refill_left_le {s s' : Splitter σ} {b : Bool} (h : s.refill = (.ok b, s')) :
    s'.left ≤ s.left := by
  unfold refill at h
  split at h
  · rename_i src hs
    split at h
    · simp only [Prod.mk.injEq] at h
      exact Nat.le_of_eq (by rw [h.2])
    · split at h
      · rename_i bs src' hr
        have := Source.read_left hr
        simp only [Prod.mk.injEq] at h
        simp only [← h.2, left, hs, Handle.left]
        omega
      · simp at h
  · simp only [Prod.mk.injEq] at h
    exact Nat.le_of_eq (by rw [h.2])

omit [Source σ] in
/-- The bytes up to a terminator and the bytes from there on are all there are. -/
theorem length_piece (bytes : Bytes) :
    (bytes.takeWhile (!Line.isTerminator ·)).length +
      (bytes.dropWhile (!Line.isTerminator ·)).length = bytes.length := by
  rw [← List.length_append, List.takeWhile_append_dropWhile]

theorem scan_left {s : Splitter σ} {acc : Bytes} {size : Nat}
    (h : (s.scan acc size).found = .ok true) :
    (s.scan acc size).next.left < s.left + acc.length := by
  fun_induction scan s acc size with
  | case1 s acc size hc s' hr ih =>
    have := ih h
    have := refill_left_le hr
    omega
  | case2 => simp at h
  | case3 s acc size hc s' hr hacc =>
    have hpos : 0 < acc.length := List.length_pos_iff.mpr (by simpa using hacc)
    have := refill_left_le hr
    simp only [left] at this ⊢
    omega
  | case4 => simp at h
  | case5 s acc size b rest hc hlf ih =>
    have := ih h
    simp only [left, hc, List.length_cons] at this ⊢
    omega
  | case6 => simp at h
  | case7 s acc size b rest hc hlf piece size' hlim ht ih =>
    have hlen := length_piece s.chunk
    have := ih h
    simp only [left, List.length_nil, List.length_append, List.length_reverse, piece, ht]
      at hlen this ⊢
    omega
  | case8 s acc size b rest hc hlf piece size' hlim t tail ht =>
    have hlen := length_piece s.chunk
    simp only [left, List.length_cons, ht] at hlen ⊢
    omega

/-- A line that is handed out is paid for from what was left. -/
theorem readLine_left {s : Splitter σ} (h : s.readLine.found = .ok true) :
    s.readLine.next.left < s.left := by
  simpa [readLine] using scan_left h

/-! ## All lines -/

/-- What reading to the end gave. -/
structure AllLines (σ : Type) where
  /-- The lines in order. -/
  lines : List Bytes
  /-- The reading that gave no line any more. -/
  last : Reading σ

/-- Reads on until there is no line or reading fails; `lines` are the lines so far, the latest
first. -/
def readAllFrom (s : Splitter σ) (lines : List Bytes) : AllLines σ :=
  match _h : s.readLine.found with
  | .ok true => readAllFrom s.readLine.next (s.readLine.line :: lines)
  | _ => ⟨lines.reverse, s.readLine⟩
termination_by s.left
decreasing_by exact readLine_left _h

/-- Reads until there is no line or reading fails. -/
def readAll (s : Splitter σ) : AllLines σ :=
  readAllFrom s []

/-! ## The end -/

/-- Releases the source; what had been read ahead is dropped. -/
def close (s : Splitter σ) : Option Error × Splitter σ :=
  if s.isClosed then (none, s)
  else
    let (e, handle) := s.handle.release
    (e, { s with handle, chunk := [] })

end Splitter

end TextLines
