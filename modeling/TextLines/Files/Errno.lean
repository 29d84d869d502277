import TextLines.Bytes

/-!
# System errors

The errors that looking up, opening, reading and creating files can end in, with the numbers and
the texts that Linux gives them.
-/

namespace TextLines.Files

open Bytes

/-- A cause for which the system refuses an operation on a path or on an open file. -/
inductive Errno where
  /-- No file, or no directory on the way to it, has that name. -/
  | noEntry
  /-- The device could not be read. -/
  | inputOutput
  /-- The access is not permitted. -/
  | accessDenied
  /-- Something that is no directory stands where the path needs one. -/
  | notDirectory
  /-- A directory stands where a file is needed. -/
  | isDirectory
  /-- The argument makes no sense to the operation. -/
  | invalidArgument
  /-- The device has no room left. -/
  | noSpace
  /-- A component or the whole path is longer than the system allows. -/
  | nameTooLong
  /-- More symbolic links on the way than the system follows. -/
  | linkLoop
  deriving DecidableEq, Repr

/-- The number of an error. -/
def Errno.code : Errno → Nat
  | .noEntry => 2
  | .inputOutput => 5
  | .accessDenied => 13
  | .notDirectory => 20
  | .isDirectory => 21
  | .invalidArgument => 22
  | .noSpace => 28
  | .nameTooLong => 36
  | .linkLoop => 40

/-- The text of an error. -/
def Errno.text : Errno → Bytes
  | .noEntry => ascii "No such file or directory"
  | .inputOutput => ascii "Input/output error"
  | .accessDenied => ascii "Permission denied"
  | .notDirectory => ascii "Not a directory"
  | .isDirectory => ascii "Is a directory"
  | .invalidArgument => ascii "Invalid argument"
  | .noSpace => ascii "No space left on device"
  | .nameTooLong => ascii "File name too long"
  | .linkLoop => ascii "Too many levels of symbolic links"

end TextLines.Files
