import TextLines.Digest.Sha256

/-!
# The digest of a sequence of lines

A `LineDigest` takes in lines, counts them, and hashes each with a line feed behind it. The hash is
that of the text in which every line ends in a line feed, whatever ended the lines in the file
(`addAll_state`).

Once the digest has been asked for it is final: lines that come later are still counted, but the
digest stays what it was.
-/

namespace TextLines

open Bytes

/-- The digest of the lines so far. -/
structure LineDigest where
  /-- The hash in the making. -/
  state : Sha256.State := {}
  /-- How many lines there have been. -/
  lines : Nat := 0
  /-- The digest, once it has been asked for. -/
  final : Option Bytes := none
  deriving DecidableEq, Repr

namespace LineDigest

/-- Takes in a line. -/
def add (d : LineDigest) (line : Bytes) : LineDigest :=
  { d with state := (d.state.feed line).push lf, lines := d.lines + 1 }

/-- The digest in hexadecimal, and from then on no other. -/
def hex (d : LineDigest) : Bytes × LineDigest :=
  match d.final with
  | some text => (text, d)
  | none =>
    let text := Bytes.hex d.state.finish
    (text, { d with final := some text })

/-- Takes in lines in order. -/
def addAll (d : LineDigest) (lines : List Bytes) : LineDigest :=
  lines.foldl add d

theorem add_state (d : LineDigest) (line : Bytes) :
    (d.add line).state = d.state.feed (line ++ [lf]) := by
  rw [Sha256.State.feed_append]
  rfl

theorem addAll_state (d : LineDigest) (lines : List Bytes) :
    (d.addAll lines).state = d.state.feed (lines.flatMap (· ++ [lf])) := by
  induction lines generalizing d with
  | nil => rfl
  | cons line lines ih =>
    rw [List.flatMap_cons, Sha256.State.feed_append, ← add_state]
    exact ih (d.add line)

end LineDigest

end TextLines
