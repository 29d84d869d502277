import TextLines.Gzip.Bits

/-!
# Prefix codes

A prefix code is given by the length of each symbol's code word. The code words are the canonical
ones: shorter words come before longer ones, and words of one length are in the order of their
symbols. So it is enough to know how many words there are of each length, and the symbols in the
order of their words.

`decode` follows one bit after another and compares the word read so far with the first word of
its length. `kraft` measures how much of the space of words the lengths use up: a set of lengths is
`Complete` if it uses all, and only a set with words of one bit may leave some over.
-/

namespace TextLines.Gzip

/-- A prefix code. -/
structure Code where
  /-- The number of words of one bit, of two bits, and so on up to the longest. -/
  counts : List Nat
  /-- The symbols in the order of their words. -/
  symbols : Array Nat
  /-- Even a code without words takes one bit to be found out. -/
  counts_ne_nil : counts ≠ []

namespace Code

/-- The longest code word. -/
def maxLength : Nat := 15

/-- The number of words with each length from one to `maxLength`. -/
def countsOf (lengths : List Nat) : List Nat :=
  (List.range maxLength).map fun i => lengths.count (i + 1)

/-- The length of the longest word; zero if there is none. -/
def longest (lengths : List Nat) : Nat :=
  lengths.foldl max 0

theorem take_countsOf_ne_nil (lengths : List Nat) (n : Nat) :
    (countsOf lengths).take (max 1 n) ≠ [] := by
  have : 0 < ((countsOf lengths).take (max 1 n)).length := by
    simp only [List.length_take, countsOf, List.length_map, List.length_range, maxLength]
    omega
  exact List.length_pos_iff.mp this

/-- The canonical code with the given word lengths; a length of zero means no word. -/
def ofLengths (lengths : List Nat) : Code where
  counts := (countsOf lengths).take (max 1 (longest lengths))
  symbols := ((List.range (longest lengths)).flatMap fun i =>
    (lengths.zipIdx.filter fun e => e.1 == i + 1).map (·.2)).toArray
  counts_ne_nil := take_countsOf_ne_nil lengths (longest lengths)

/-- Of `space` words of the current length, how many are left over after taking words of this and
the following lengths; nothing if there are too few. -/
def kraft (space : Nat) : List Nat → Option Nat
  | [] => some space
  | count :: counts => if 2 * space < count then none else kraft (2 * space - count) counts

/-- Whether a set of lengths makes a code: no space is overdrawn, and space is left over only where
`loose` allows it, for words of a single bit. The empty set always makes one. -/
def Sound (loose : Bool) (lengths : List Nat) : Bool :=
  if longest lengths == 0 then true
  else
    match kraft 1 (countsOf lengths) with
    | none => false
    | some left => left == 0 || (loose && longest lengths == 1)

/-- Reads on in a word of which `word` has been read; `first` is the first word of the length
before, doubled and moved past that length's words, and `index` the number of shorter words. -/
def decodeFrom (symbols : Array Nat) (word first index : Nat) : List Nat → Parser (Option Nat)
  | [] => return none
  | count :: counts => do
    let b ← Parser.bit
    let word := 2 * word + b.toNat
    if word < first + count then return symbols[index + (word - first)]?
    else decodeFrom symbols word (2 * (first + count)) (index + count) counts

/-- Reads a code word and gives its symbol; none if the bits are no word. -/
def decode (code : Code) : Parser (Option Nat) :=
  decodeFrom code.symbols 0 0 0 code.counts

theorem consumes_decodeFrom (symbols : Array Nat) (word first index : Nat) (counts : List Nat) :
    Parser.Consumes 0 (decodeFrom symbols word first index counts) := by
  induction counts generalizing word first index with
  | nil => exact Parser.consumes_pure none
  | cons count counts ih =>
    refine (Parser.consumes_bind (k := 0) Parser.consumes_bit fun b => ?_).mono (Nat.zero_le _)
    dsimp only
    split
    · exact Parser.consumes_pure _
    · exact ih _ _ _

/-- A code word has at least one bit. -/
theorem consumes_decode (code : Code) : Parser.Consumes 1 code.decode := by
  unfold decode
  cases h : code.counts with
  | nil => exact absurd h code.counts_ne_nil
  | cons count counts =>
    refine Parser.consumes_bind (k := 0) Parser.consumes_bit fun b => ?_
    dsimp only
    split
    · exact Parser.consumes_pure _
    · exact consumes_decodeFrom _ _ _ _ _

end Code

end TextLines.Gzip
