import TextLines.Files.Errno
import TextLines.Gzip.Fault

/-!
# Errors

One type for everything that can go wrong between a path and its lines. A value says what
happened; `Error.text` alone knows the wording. What is shown of it is `Error.message`.
-/

namespace TextLines

open Bytes
open Files (Errno)

/-- Why a document could not be opened. -/
inductive OpenFault where
  /-- The system refuses the path. -/
  | system (errno : Errno)
  /-- The file does not start like a gzip file. -/
  | notGzip
  /-- The first member is compressed by a method other than deflate. -/
  | unknownMethod
  /-- The first member sets a header flag that has no meaning. -/
  | reservedFlags
  /-- No character set has that name. -/
  | unknownEncoding (name : Bytes)
  /-- There is nothing to read from. -/
  | noSource
  deriving DecidableEq, Repr

/-- Why reading on was impossible. -/
inductive ReadFault where
  /-- The system refuses to read the opened file. -/
  | system (path : Bytes) (errno : Errno)
  /-- The file ends inside a gzip member. -/
  | truncated (path : Bytes)
  /-- A gzip member is damaged. -/
  | corrupt (path : Bytes) (fault : Gzip.Fault)
  /-- The line with this number, counted from one, is longer than the limit. -/
  | lineTooLong (number limit : Nat)
  /-- A source failed for a reason of its own. -/
  | device (reason : Bytes)
  deriving DecidableEq, Repr

/-- What an operation can fail with. -/
inductive Error where
  /-- The document could not be opened. -/
  | opening (path : Bytes) (fault : OpenFault)
  /-- Reading failed in the middle of the document. -/
  | reading (fault : ReadFault)
  /-- Releasing the source failed; it is released all the same. -/
  | closing (reason : Bytes)
  /-- A line was asked for, and there is none left. -/
  | noMoreLines
  /-- Whoever was handed the lines gave up. -/
  | interrupted (reason : Bytes)
  /-- Looking a path up failed for another reason than its absence. -/
  | pathStatus (path : Bytes) (errno : Errno)
  /-- No buffer of the configured chunk size can exist. -/
  | chunkTooLarge
  /-- There is no memory for a buffer of the configured chunk size. -/
  | outOfMemory
  deriving DecidableEq, Repr

/-- The number of the system error behind a refused opening, zero if there is none. An unknown
encoding counts as an invalid argument. -/
def OpenFault.code : OpenFault → Nat
  | .system errno => errno.code
  | .unknownEncoding _ => Errno.invalidArgument.code
  | _ => 0

/-- The text for a refused opening of `path`. -/
def OpenFault.text (path : Bytes) : OpenFault → Bytes
  | .system errno => ascii "cannot open: " ++ path ++ ascii ": " ++ errno.text
  | .notGzip => ascii "not in gzip format: " ++ path
  | .unknownMethod => ascii "unknown gzip compression method: " ++ path
  | .reservedFlags => ascii "reserved gzip header flags set: " ++ path
  | .unknownEncoding name => ascii "unsupported encoding '" ++ name ++ ascii "': " ++ path
  | .noSource => ascii "no byte source for " ++ path

/-- The text for a failed read. -/
def ReadFault.text : ReadFault → Bytes
  | .system path errno => ascii "read failed: " ++ path ++ ascii ": " ++ errno.text
  | .truncated path => ascii "unexpected end of gzip stream: " ++ path
  | .corrupt path fault => ascii "inflate failed: " ++ path ++ ascii ": " ++ fault.text
  | .lineTooLong number limit =>
      ascii "line " ++ decimal number ++ ascii " exceeds max_line_bytes (" ++ decimal limit ++
        ascii ")"
  | .device reason => reason

/-- The text for an error. -/
def Error.text : Error → Bytes
  | .opening path fault => fault.text path
  | .reading fault => fault.text
  | .closing reason => reason
  | .noMoreLines => ascii "no more lines"
  | .interrupted reason => reason
  | .pathStatus path errno =>
      ascii "filesystem error: status: " ++ errno.text ++ ascii " [" ++ path ++ ascii "]"
  | .chunkTooLarge => ascii "cannot create std::vector larger than max_size()"
  | .outOfMemory => ascii "std::bad_alloc"

/-- What is shown of an error: its text up to the first zero byte. A path or the name of an encoding
may hold one, and then the rest of the text is not seen. -/
def Error.message (e : Error) : Bytes :=
  untilNul e.text

end TextLines
