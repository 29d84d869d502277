import TextLines.Bytes

/-!
# The lines of a byte string

A line ends at a line feed, at a carriage return, or at the two in this order, which count as one
terminator. `cut` gives the lines of a whole byte string without their terminators; empty lines
count, and what follows the last terminator is a line only if it is not empty.

This is the plain meaning of "line": it knows nothing of chunks, buffers or sources.
-/

namespace TextLines.Line

/-- Whether a byte ends a line. -/
def isTerminator (b : UInt8) : Bool :=
  b == Bytes.lf || b == Bytes.cr

/-- One more byte at the front of the first line. -/
def prepend (b : UInt8) : List Bytes → List Bytes
  | [] => [[b]]
  | line :: rest => (b :: line) :: rest

/-- The lines of a byte string. -/
def cut : Bytes → List Bytes
  | [] => []
  | 10 :: rest => [] :: cut rest
  | 13 :: 10 :: rest => [] :: cut rest
  | 13 :: rest => [] :: cut rest
  | b :: rest => prepend b (cut rest)

end TextLines.Line
