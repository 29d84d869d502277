import TextLines.Files.LookUp
import TextLines.Gzip.Member
import TextLines.Source.Basic

/-!
# Gzip files

A source over a file of one or more gzip members that hands out what they hold, one after another.
The file is read in blocks; a block is fetched when the last one is used up and more bits are
needed, or when a read starts with none left. Behind a member another one is taken to follow if
the next byte is the first of a member; whatever else stands there is the end.

A read is all or nothing: when the data turns out to be damaged or cut off, what that read had
decompressed is not handed out.
-/

namespace TextLines

open Files (FileSystem)
open Gzip (Bits Member)

/-- An opened gzip file and the position in it. -/
structure GzipSource where
  /-- The path, for messages. -/
  path : Bytes
  /-- What has not been read from the file. -/
  rest : Bytes
  /-- What has been read from the file and not been used. -/
  bits : Bits := ⟨[], []⟩
  /-- The member that is being decompressed. -/
  member : Member := {}
  /-- How many bytes have been read from the file. -/
  served : Nat := 0
  /-- Whether the last member is complete. -/
  done : Bool := false
  /-- Whether the file is still open. -/
  isOpen : Bool := true

namespace GzipSource

/-- How much is read from the file at a time. -/
def blockBytes : Nat := 65536

/-- The most that one read hands out. -/
def maxRead : Nat := 4294967295

/-- Reads a block from the file. -/
def fill (s : GzipSource) : GzipSource :=
  let (block, rest) := s.rest.splitAt blockBytes
  { s with rest, bits := s.bits.append block, served := s.served + block.length }

/-- Opens the gzip file at a path. The fixed part of its first header is looked at right away. -/
def ofPath (fs : FileSystem) (path : Bytes) : Except Error GzipSource :=
  match fs.openFile path with
  | .error e => .error (.opening path (.system e))
  | .ok (.unreadable errno) => .error (.reading (.system path errno))
  | .ok (.zeros _) => .error (.opening path .notGzip)
  | .ok (.content bytes) =>
    let s := fill { path, rest := bytes }
    match s.bits.ahead with
    | 0x1f :: 0x8b :: method :: flags :: more =>
      if more.length < 6 then .error (.opening path .notGzip)
      else if method ≠ 8 then .error (.opening path .unknownMethod)
      else if 32 ≤ flags then .error (.opening path .reservedFlags)
      else .ok s
    | _ => .error (.opening path .notGzip)

/-- A bound on the bytes still to come: what the member owes, and what the file can pay for. -/
def left (s : GzipSource) : Nat :=
  s.member.weight + Member.bitWorth * (s.bits.size + 8 * s.rest.length)

theorem left_fill (s : GzipSource) : s.fill.left = s.left := by
  simp only [left, fill, List.splitAt_eq, Bits.size_append, List.length_take, List.length_drop,
    Member.bitWorth]
  omega

/-- The source with everything it has read taken out of its bytes. -/
def absorb (s : GzipSource) : GzipSource :=
  { s with bits := s.bits.absorb }

theorem left_absorb (s : GzipSource) : s.absorb.left = s.left := by
  simp [left, absorb, Bits.size_absorb]

/-- The source behind a complete member, in front of whatever follows. -/
def behindMember (s : GzipSource) (bits : Bits) : GzipSource :=
  let s := { s with member := {}, bits }
  if bits.ahead.isEmpty then s.fill else s

theorem left_behindMember {s : GzipSource} {bits : Bits} (h : bits.size < s.bits.size) :
    (s.behindMember bits).left < s.left := by
  have hlt : ({ s with member := {}, bits } : GzipSource).left < s.left := by
    simp only [left, Member.weight, Member.phaseWeight, Member.bitWorth]
    omega
  unfold behindMember
  dsimp only
  split
  · rw [left_fill]
    exact hlt
  · exact hlt

/-- Decompresses on, with `room` for so many bytes behind those in `out`, last byte first. -/
def run (room : Nat) (s : GzipSource) (out : Bytes) : Except Error Bytes × GzipSource :=
  match _h : s.member.step (0 < room) s.bits with
  | .went member emitted bits =>
    run (room - emitted.toList.length) { s with member, bits } (emitted.toList ++ out)
  | .full => (.ok out.reverse, s)
  | .starved =>
    if room = 0 then (.ok out.reverse, s.absorb)
    else if _hr : s.rest = [] then (.error (.reading (.truncated s.path)), s.absorb)
    else run room s.absorb.fill out
  | .ended bits =>
    let s' := s.behindMember bits
    if s'.bits.ahead.head? = some 0x1f then
      if room = 0 then (.ok out.reverse, s') else run room s' out
    else (.ok out.reverse, { s' with done := true })
  | .fault fault bits =>
    (.error (.reading (.corrupt s.path fault)),
      { s with member := { s.member with phase := .broken fault }, bits })
termination_by (s.left, s.rest.length)
decreasing_by
  · apply Prod.Lex.left
    have := Member.step_cost _h
    simp only [left, Member.bitWorth] at this ⊢
    omega
  · rw [left_fill, left_absorb]
    apply Prod.Lex.right
    have := List.length_pos_iff.mpr _hr
    simp only [fill, absorb, List.splitAt_eq, List.length_drop, blockBytes]
    omega
  · exact Prod.Lex.left _ _ (left_behindMember (Member.step_ended _h))

/-- Decompresses up to `n` bytes, and as far beyond as no output is needed. -/
def read (n : Nat) (s : GzipSource) : Except Error Bytes × GzipSource :=
  if !s.isOpen || s.done || n = 0 then (.ok [], s)
  else
    let s := if s.bits.ahead.isEmpty then s.fill else s
    if s.bits.ahead.isEmpty then (.error (.reading (.truncated s.path)), s)
    else run (min n maxRead) s []

/-- Closes the file. -/
def close (s : GzipSource) : Option Error × GzipSource :=
  (none, { s with isOpen := false })

theorem run_length {room : Nat} {s s' : GzipSource} {out bs : Bytes}
    (h : run room s out = (.ok bs, s')) : bs.length ≤ out.length + room := by
  fun_induction run room s out with
  | case1 room s out member emitted bits hs ih =>
    have hb := ih h
    have : emitted.toList.length ≤ room := by
      cases room with
      | zero => simp [Member.step_emits_none (by simpa using hs)]
      | succ room => cases emitted <;> simp
    simp only [List.length_append] at hb
    omega
  | case2 =>
    simp only [Prod.mk.injEq, Except.ok.injEq] at h
    simp [← h.1]
  | case3 =>
    simp only [Prod.mk.injEq, Except.ok.injEq] at h
    simp [← h.1]
  | case4 => simp at h
  | case5 _ _ _ _ _ _ ih => exact ih h
  | case6 =>
    simp only [Prod.mk.injEq, Except.ok.injEq] at h
    simp [← h.1]
  | case7 _ _ _ _ _ _ _ _ ih => exact ih h
  | case8 =>
    simp only [Prod.mk.injEq, Except.ok.injEq] at h
    simp [← h.1]
  | case9 => simp at h

theorem run_left {room : Nat} {s s' : GzipSource} {out bs : Bytes}
    (h : run room s out = (.ok bs, s')) : bs.length + s'.left ≤ out.length + s.left := by
  fun_induction run room s out with
  | case1 room s out member emitted bits hs ih =>
    have hb := ih h
    have hc := Member.step_cost hs
    simp only [left, List.length_append, Member.bitWorth] at hb hc ⊢
    omega
  | case2 =>
    simp only [Prod.mk.injEq, Except.ok.injEq] at h
    simp [← h.1, ← h.2]
  | case3 =>
    simp only [Prod.mk.injEq, Except.ok.injEq] at h
    simp [← h.1, ← h.2, left_absorb]
  | case4 => simp at h
  | case5 room s out hs hroom hr ih =>
    have := ih h
    rwa [left_fill, left_absorb] at this
  | case6 s out bits s'' hhead hs =>
    have : s''.left < s.left := left_behindMember (Member.step_ended hs)
    simp only [Prod.mk.injEq, Except.ok.injEq] at h
    simp only [← h.1, ← h.2, List.length_reverse]
    omega
  | case7 room s out bits hs s'' hhead hroom ih =>
    have : s''.left < s.left := left_behindMember (Member.step_ended hs)
    have := ih h
    omega
  | case8 room s out bits hs s'' hhead =>
    have hl : s''.left < s.left := left_behindMember (Member.step_ended hs)
    simp only [Prod.mk.injEq, Except.ok.injEq] at h
    simp only [← h.1, ← h.2, List.length_reverse]
    simp only [left] at hl ⊢
    omega
  | case9 => simp at h

theorem read_length {n : Nat} {s s' : GzipSource} {bs : Bytes} (h : s.read n = (.ok bs, s')) :
    bs.length ≤ n := by
  unfold read at h
  split at h
  · simp only [Prod.mk.injEq, Except.ok.injEq] at h
    simp [← h.1]
  · dsimp only at h
    generalize (if s.bits.ahead.isEmpty then s.fill else s) = t at h
    split at h
    · simp at h
    · have := run_length h
      simp only [List.length_nil] at this
      omega

theorem read_left {n : Nat} {s s' : GzipSource} {bs : Bytes} (h : s.read n = (.ok bs, s')) :
    bs.length + s'.left ≤ s.left := by
  unfold read at h
  split at h
  · simp only [Prod.mk.injEq, Except.ok.injEq] at h
    simp [← h.1, ← h.2]
  · have ht : (if s.bits.ahead.isEmpty then s.fill else s).left = s.left := by
      split
      · exact left_fill s
      · rfl
    dsimp only at h
    generalize (if s.bits.ahead.isEmpty then s.fill else s) = t at h ht
    split at h
    · simp at h
    · have := run_left h
      simp only [List.length_nil] at this
      omega

instance : Source GzipSource where
  read := read
  close := close
  bytesRead := served
  left := left
  read_length := read_length
  read_left := read_left

end GzipSource

end TextLines
