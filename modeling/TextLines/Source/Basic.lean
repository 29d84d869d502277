import TextLines.Error

/-!
# Byte sources

A source hands out bytes on demand until it has none left. Files, gzip files, decoders and data in
memory are all sources, and everything above them (cutting into lines, cursors, documents) is
written once for any of them.

A source is a value: reading gives the bytes together with the source as it is afterwards. Two
laws are part of the interface. `read_length` says that a read gives no more than was asked for.
`read_left` says that every byte handed out is paid for from a stock `left` that nothing refills
while reads succeed; this is why every loop that reads to the end comes to an end.
-/

namespace TextLines

/-- A producer of bytes that is read piecewise and released once. -/
class Source (σ : Type) where
  /-- At most the given number of bytes; none only when nothing is left (or none was asked for). -/
  read : Nat → σ → Except Error Bytes × σ
  /-- Releases what the source holds. The source is released even if an error is reported. -/
  close : σ → Option Error × σ
  /-- How many bytes of the underlying file have been consumed. -/
  bytesRead : σ → Nat
  /-- A bound on what is still to come. -/
  left : σ → Nat
  /-- A read gives no more bytes than it was asked for. -/
  read_length : ∀ {n s bs s'}, read n s = (.ok bs, s') → bs.length ≤ n
  /-- What a read gives is taken from what was left. -/
  read_left : ∀ {n s bs s'}, read n s = (.ok bs, s') → bs.length + left s' ≤ left s

namespace Source

/-- Two kinds of source are one kind: each keeps to its own rules. -/
instance sum {σ τ : Type} [Source σ] [Source τ] : Source (σ ⊕ τ) where
  read n
    | .inl s => let (r, s') := read n s; (r, .inl s')
    | .inr t => let (r, t') := read n t; (r, .inr t')
  close
    | .inl s => let (e, s') := close s; (e, .inl s')
    | .inr t => let (e, t') := close t; (e, .inr t')
  bytesRead
    | .inl s => bytesRead s
    | .inr t => bytesRead t
  left
    | .inl s => left s
    | .inr t => left t
  read_length := by
    intro n s bs s' h
    cases s with
    | inl s => simp only [Prod.mk.injEq] at h; exact read_length (Prod.ext h.1 rfl)
    | inr t => simp only [Prod.mk.injEq] at h; exact read_length (Prod.ext h.1 rfl)
  read_left := by
    intro n s bs s' h
    cases s with
    | inl s =>
      simp only [Prod.mk.injEq] at h
      obtain ⟨h, rfl⟩ := h
      exact read_left (Prod.ext h rfl)
    | inr t =>
      simp only [Prod.mk.injEq] at h
      obtain ⟨h, rfl⟩ := h
      exact read_left (Prod.ext h rfl)

/-! ## Reading to the end -/

/-- What reading to the end of a source gave. -/
structure Drained (σ : Type) where
  /-- Everything that was handed out, up to the end or to the failure. -/
  data : Bytes
  /-- How many reads were made. -/
  calls : Nat
  /-- What stopped the reading before the end. -/
  failure : Option Error
  /-- The source afterwards. -/
  source : σ

/-- Reads `n` bytes at a time until the source gives none or fails; `pieces` is what it has given
so far, newest piece first. -/
def drainFrom {σ : Type} [Source σ] (n : Nat) (s : σ) (pieces : List Bytes) (calls : Nat) :
    Drained σ :=
  match h : read n s with
  | (.error e, s') => ⟨pieces.reverse.flatten, calls + 1, some e, s'⟩
  | (.ok [], s') => ⟨pieces.reverse.flatten, calls + 1, none, s'⟩
  | (.ok (b :: bs), s') => drainFrom n s' ((b :: bs) :: pieces) (calls + 1)
termination_by left s
decreasing_by
  have := read_left h
  simp only [List.length_cons] at this
  omega

/-- Reads `n` bytes at a time until the source gives none or fails. -/
def drain {σ : Type} [Source σ] (n : Nat) (s : σ) : Drained σ :=
  drainFrom n s [] 0

end Source

end TextLines
