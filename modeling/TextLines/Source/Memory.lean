import TextLines.Source.Basic

/-!
# Data in memory, with scripted failures

A source over bytes that are at hand. It serves them in pieces of a chosen size, and it can be told
to fail: at one read, counted from the first, or when it is first closed. It is the source on which
the behaviour of everything above can be observed under any fragmentation and any failure.
-/

namespace TextLines

/-- A source over bytes in memory. -/
structure Memory where
  /-- The bytes not yet served. -/
  rest : Bytes
  /-- The most that one read serves. -/
  step : Nat
  /-- The read that fails, counted from one, and why it does. -/
  readFault : Option (Nat × Error) := none
  /-- Why the first close fails. -/
  closeFault : Option Error := none
  /-- How many bytes have been served. -/
  served : Nat := 0
  /-- How many reads have been made. -/
  reads : Nat := 0
  /-- Whether the source has been closed. -/
  closed : Bool := false

namespace Memory

/-- Whether the next read is the one that fails, and why. -/
def nextFault (m : Memory) : Option Error :=
  match m.readFault with
  | some (number, e) => if number = m.reads + 1 then some e else none
  | none => none

/-- Serves the next piece. The failing read consumes nothing, and it fails even after a close;
any other read of a closed source serves nothing. -/
def read (n : Nat) (m : Memory) : Except Error Bytes × Memory :=
  match m.nextFault with
  | some e => (.error e, { m with reads := m.reads + 1 })
  | none =>
    if m.closed then (.ok [], { m with reads := m.reads + 1 })
    else
      let piece := m.rest.take (min n m.step)
      (.ok piece, { m with
        rest := m.rest.drop (min n m.step)
        served := m.served + piece.length
        reads := m.reads + 1 })

/-- The first close may fail; later ones do nothing. -/
def close (m : Memory) : Option Error × Memory :=
  if m.closed then (none, m) else (m.closeFault, { m with closed := true })

instance : Source Memory where
  read := read
  close := close
  bytesRead := served
  left m := m.rest.length
  read_length := by
    intro n m bs m' h
    unfold read at h
    split at h
    · simp at h
    · split at h
      · simp only [Prod.mk.injEq, Except.ok.injEq] at h; simp [← h.1]
      · simp only [Prod.mk.injEq, Except.ok.injEq] at h
        simp only [← h.1, List.length_take]
        omega
  read_left := by
    intro n m bs m' h
    unfold read at h
    split at h
    · simp at h
    · split at h
      · simp only [Prod.mk.injEq, Except.ok.injEq] at h; simp [← h.1, ← h.2]
      · simp only [Prod.mk.injEq, Except.ok.injEq] at h
        simp only [← h.1, ← h.2, List.length_take, List.length_drop]
        omega

end Memory

end TextLines
