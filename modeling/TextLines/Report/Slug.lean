import TextLines.Digest.Sha256
import TextLines.Files.Path

/-!
# Names for reports

The report on a file goes into a directory of its own. Its name, the slug, is made from a key: by
default a piece of the key's hash, so that two files have different directories wherever they are,
or else the file name, cut to a length.

Lengths are numbers of 32 bits, and so is what is computed from them. `makeSlug` takes the mode as a
word and any key; `slug` is what it comes to for a path that can be opened, whose names are far
shorter than such numbers reach.
-/

namespace TextLines

open Bytes
open Files (Path.fileName Path.extension)

/-- The endings of the names of compressed files. -/
def compressedExtensions : List Bytes :=
  [ascii ".gz", ascii ".gzip"]

/-- Guesses from its name whether a file is compressed. -/
def looksCompressed (path : Bytes) : Bool :=
  compressedExtensions.contains ((Path.extension path).map lowerByte)

/-- What is left of a number in 32 bits, the highest of which is for the sign. -/
def wrap32 (n : Int) : Int :=
  n.bmod 0x100000000

/-- The greatest number of 32 bits with a sign. -/
def greatest32 : Int :=
  0x7fffffff

/-- The bytes of a hash that the program takes, as it is built, for the greatest length. The sum of
the length and one overflows, and nothing is laid down for what comes of that. -/
def overflowBytes : Nat :=
  1

/-- The bytes of a hash that are needed for so many digits: half as many, rounded up, but no more
than there are. -/
def bytesFor (length : Int) : Nat :=
  if length = greatest32 then overflowBytes else min 32 ((length + 1) / 2).toNat

/-- Cuts a text to a length that it exceeds, by what 32 bits keep of its own. -/
def cutTo (length : Int) (text : Bytes) : Bytes :=
  if length < wrap32 text.length then text.take length.toNat else text

/-- The first `length` hexadecimal digits of a hash, all 64 at most, none for a length below one. -/
def hashPrefix (key : Bytes) (length : Int) : Bytes :=
  if length ≤ 0 then []
  else cutTo length (hex ((Sha256.hash key).take (bytesFor length)))

/-- The name of the report directory for a key, at most `length` bytes long: from its last component
if the mode says so, and else from the digits of its hash. -/
def makeSlug (key mode : Bytes) (length : Int) : Bytes :=
  if length ≤ 0 then []
  else if mode == ascii "basename" then cutTo length (Path.fileName key)
  else hashPrefix key length

/-- How a slug comes from its key. -/
inductive SlugMode where
  /-- From the digits of its hash. -/
  | hashPrefix
  /-- From its last component. -/
  | fileName
  deriving DecidableEq, Repr

/-- The name of the report directory for a path, at most `length` bytes long. -/
def slug (mode : SlugMode) (key : Bytes) (length : Int) : Bytes :=
  match mode with
  | .hashPrefix => hashPrefix key length
  | .fileName => (Path.fileName key).take length.toNat

end TextLines
