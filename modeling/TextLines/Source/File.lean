import TextLines.Files.LookUp
import TextLines.Source.Basic

/-!
# Plain files

A source over an opened file. Opening takes the content as it stands: a file that is replaced or
removed later keeps delivering what it held. A device that reads as zero bytes delivers as many as
are asked for. A directory opens like a file, and every read of it fails.
-/

namespace TextLines

open Files (FileSystem Opened)

/-- An opened file and the position in it. -/
structure FileSource where
  /-- The path, for messages. -/
  path : Bytes
  /-- What has not been read yet. -/
  rest : Opened
  /-- How many bytes have been read. -/
  served : Nat := 0
  /-- Whether the file is still open. -/
  isOpen : Bool := true

namespace FileSource

/-- Opens the file at a path. -/
def ofPath (fs : FileSystem) (path : Bytes) : Except Error FileSource :=
  match fs.openFile path with
  | .ok opened => .ok { path, rest := opened }
  | .error e => .error (.opening path (.system e))

/-- The next bytes of the file. -/
def read (n : Nat) (s : FileSource) : Except Error Bytes × FileSource :=
  if s.isOpen && n != 0 then
    match s.rest with
    | .content bytes =>
      let (piece, rest) := bytes.splitAt n
      (.ok piece, { s with rest := .content rest, served := s.served + piece.length })
    | .zeros count =>
      let size := min n count
      (.ok (List.replicate size 0),
        { s with rest := .zeros (count - size), served := s.served + size })
    | .unreadable errno => (.error (.reading (.system s.path errno)), s)
  else (.ok [], s)

/-- Closes the file. -/
def close (s : FileSource) : Option Error × FileSource :=
  (none, { s with isOpen := false })

/-- The number of bytes not read yet. -/
def left (s : FileSource) : Nat :=
  match s.rest with
  | .content bytes => bytes.length
  | .zeros count => count
  | .unreadable _ => 0

theorem read_length {n : Nat} {s s' : FileSource} {bs : Bytes} (h : s.read n = (.ok bs, s')) :
    bs.length ≤ n := by
  unfold read at h
  split at h
  · split at h
    · simp only [List.splitAt_eq, Prod.mk.injEq, Except.ok.injEq] at h
      rw [← h.1, List.length_take]
      exact Nat.min_le_left _ _
    · simp only [Prod.mk.injEq, Except.ok.injEq] at h
      rw [← h.1, List.length_replicate]
      exact Nat.min_le_left _ _
    · simp at h
  · simp only [Prod.mk.injEq, Except.ok.injEq] at h
    simp [← h.1]

theorem read_left {n : Nat} {s s' : FileSource} {bs : Bytes} (h : s.read n = (.ok bs, s')) :
    bs.length + s'.left ≤ s.left := by
  unfold read at h
  split at h
  · split at h
    · rename_i bytes hrest
      simp only [List.splitAt_eq, Prod.mk.injEq, Except.ok.injEq] at h
      simp only [← h.1, ← h.2, left, hrest, List.length_take, List.length_drop]
      omega
    · rename_i count hrest
      simp only [Prod.mk.injEq, Except.ok.injEq] at h
      simp only [← h.1, ← h.2, left, hrest, List.length_replicate]
      omega
    · simp at h
  · simp only [Prod.mk.injEq, Except.ok.injEq] at h
    simp [← h.1, ← h.2]

instance : Source FileSource where
  read := read
  close := close
  bytesRead := served
  left := left
  read_length := read_length
  read_left := read_left

end FileSource

end TextLines
