import TextLines.Bytes

/-!
# SHA-256

The hash function of FIPS 180-4 for strings of whole bytes. Bytes go in one at a time (`State.push`)
or many at once (`State.feed`), and `State.finish` gives the 32 bytes of the hash; `hash` does
everything at once.

Main statements:

* `feed_append`: feeding two strings one after the other is feeding them joined, so a hash does not
  depend on the pieces in which its input arrives;
* `length_hash`: a hash has 32 bytes.
-/

namespace TextLines.Sha256

open Bytes

/-- The eight words that are carried from block to block. -/
structure Words where
  a : UInt32
  b : UInt32
  c : UInt32
  d : UInt32
  e : UInt32
  f : UInt32
  g : UInt32
  h : UInt32
  deriving DecidableEq, Repr

/-- The words before the first block: the first 32 bits of the fractional parts of the square roots
of the first eight primes. -/
def Words.initial : Words where
  a := 0x6a09e667
  b := 0xbb67ae85
  c := 0x3c6ef372
  d := 0xa54ff53a
  e := 0x510e527f
  f := 0x9b05688c
  g := 0x1f83d9ab
  h := 0x5be0cd19

/-- One constant for each round: the first 32 bits of the fractional parts of the cube roots of the
first 64 primes. -/
def constants : List UInt32 := [
  0x428a2f98, 0x71374491, 0xb5c0fbcf, 0xe9b5dba5, 0x3956c25b, 0x59f111f1, 0x923f82a4, 0xab1c5ed5,
  0xd807aa98, 0x12835b01, 0x243185be, 0x550c7dc3, 0x72be5d74, 0x80deb1fe, 0x9bdc06a7, 0xc19bf174,
  0xe49b69c1, 0xefbe4786, 0x0fc19dc6, 0x240ca1cc, 0x2de92c6f, 0x4a7484aa, 0x5cb0a9dc, 0x76f988da,
  0x983e5152, 0xa831c66d, 0xb00327c8, 0xbf597fc7, 0xc6e00bf3, 0xd5a79147, 0x06ca6351, 0x14292967,
  0x27b70a85, 0x2e1b2138, 0x4d2c6dfc, 0x53380d13, 0x650a7354, 0x766a0abb, 0x81c2c92e, 0x92722c85,
  0xa2bfe8a1, 0xa81a664b, 0xc24b8b70, 0xc76c51a3, 0xd192e819, 0xd6990624, 0xf40e3585, 0x106aa070,
  0x19a4c116, 0x1e376c08, 0x2748774c, 0x34b0bcb5, 0x391c0cb3, 0x4ed8aa4a, 0x5b9cca4f, 0x682e6ff3,
  0x748f82ee, 0x78a5636f, 0x84c87814, 0x8cc70208, 0x90befffa, 0xa4506ceb, 0xbef9a3f7, 0xc67178f2]

/-! ## One block -/

/-- The word turned right by `n` bits, for `n` from 1 to 31. -/
def rotateRight (x n : UInt32) : UInt32 :=
  (x >>> n) ||| (x <<< (32 - n))

/-- One round with its constant and its word of the schedule. -/
def Words.round (s : Words) (constant word : UInt32) : Words :=
  let sum1 := rotateRight s.e 6 ^^^ rotateRight s.e 11 ^^^ rotateRight s.e 25
  let choice := (s.e &&& s.f) ^^^ (~~~ s.e &&& s.g)
  let t1 := s.h + sum1 + choice + constant + word
  let sum0 := rotateRight s.a 2 ^^^ rotateRight s.a 13 ^^^ rotateRight s.a 22
  let majority := (s.a &&& s.b) ^^^ (s.a &&& s.c) ^^^ (s.b &&& s.c)
  { a := t1 + sum0 + majority, b := s.a, c := s.b, d := s.c
    e := s.d + t1, f := s.e, g := s.f, h := s.g }

/-- Adds word by word. -/
def Words.add (s t : Words) : Words where
  a := s.a + t.a
  b := s.b + t.b
  c := s.c + t.c
  d := s.d + t.d
  e := s.e + t.e
  f := s.f + t.f
  g := s.g + t.g
  h := s.h + t.h

/-- The next word of a schedule that is given with its latest word first. -/
def nextWord (latest : List UInt32) : UInt32 :=
  let x := latest.getD 1 0
  let y := latest.getD 14 0
  (rotateRight x 17 ^^^ rotateRight x 19 ^^^ (x >>> 10)) + latest.getD 6 0 +
    (rotateRight y 7 ^^^ rotateRight y 18 ^^^ (y >>> 3)) + latest.getD 15 0

/-- Adds `n` words in front of a schedule that is given with its latest word first. -/
def extend : Nat → List UInt32 → List UInt32
  | 0, latest => latest
  | n + 1, latest => extend n (nextWord latest :: latest)

/-- Four bytes at a time as a word, highest byte first. -/
def wordsOfBytes : Bytes → List UInt32
  | a :: b :: c :: d :: rest =>
    ((a.toUInt32 <<< 24) ||| (b.toUInt32 <<< 16) ||| (c.toUInt32 <<< 8) ||| d.toUInt32) ::
      wordsOfBytes rest
  | _ => []

/-- The 64 words that the rounds of one block use. -/
def schedule (block : Bytes) : List UInt32 :=
  (extend 48 (wordsOfBytes block).reverse).reverse

/-- Takes in one block of 64 bytes. -/
def Words.compress (s : Words) (block : Bytes) : Words :=
  s.add ((constants.zip (schedule block)).foldl (fun t kw => t.round kw.1 kw.2) s)

/-! ## Many bytes -/

/-- A hash in the making. -/
structure State where
  /-- What has come of the whole blocks so far. -/
  words : Words := .initial
  /-- The bytes of the block that is not whole yet, the latest first. -/
  block : Bytes := []
  /-- How many bytes have gone in. -/
  total : Nat := 0
  deriving DecidableEq, Repr

/-- Takes in a byte. -/
def State.push (s : State) (b : UInt8) : State :=
  if s.total % 64 = 63 then
    { words := s.words.compress (b :: s.block).reverse, block := [], total := s.total + 1 }
  else { s with block := b :: s.block, total := s.total + 1 }

/-- Takes in bytes. -/
def State.feed (s : State) (bytes : Bytes) : State :=
  bytes.foldl State.push s

theorem State.feed_append (s : State) (front back : Bytes) :
    s.feed (front ++ back) = (s.feed front).feed back :=
  List.foldl_append

/-- The lowest `n` bytes of a number, highest first. -/
def bigEndian (n value : Nat) : Bytes :=
  (List.range n).reverse.map fun i => UInt8.ofNat (value >>> (8 * i))

/-- What is put behind a message of `total` bytes: a one bit, zeros to the end of a block less eight
bytes, and the number of bits. -/
def padding (total : Nat) : Bytes :=
  0x80 :: List.replicate ((119 - total % 64) % 64) 0 ++ bigEndian 8 (8 * total)

/-- The words as bytes. -/
def Words.toBytes (s : Words) : Bytes :=
  [s.a, s.b, s.c, s.d, s.e, s.f, s.g, s.h].flatMap fun w => bigEndian 4 w.toNat

/-- The hash of what has gone in. -/
def State.finish (s : State) : Bytes :=
  (s.feed (padding s.total)).words.toBytes

/-- The hash of a string of bytes. -/
def hash (bytes : Bytes) : Bytes :=
  State.finish (State.feed {} bytes)

theorem length_hash (bytes : Bytes) : (hash bytes).length = 32 := by
  simp [hash, State.finish, Words.toBytes, bigEndian]

end TextLines.Sha256
