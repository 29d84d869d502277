import TextLines.Gzip.Code
import TextLines.Gzip.Crc32

/-!
# Members and blocks

The parts of a gzip member, each with the parser that reads it: the header, the headers of the
three kinds of block, the symbols of a compressed block, and the two numbers of the trailer.

A symbol is a literal byte, a reference to earlier output, or the end of the block. References are
at most `maxReference` bytes long (`symbol_length`).
-/

namespace TextLines.Gzip

open TextLines.Gzip.Parser

/-! ## The header of a member -/

/-- Reads bytes up to and including the next zero; `read` is what has been read, last byte
first. -/
def textFrom (read : Bytes) (bits : Bits) : Parse Bytes :=
  match _h : nat 8 bits with
  | .done 0 rest => .done (0 :: read).reverse rest
  | .done b rest => textFrom (UInt8.ofNat b :: read) rest
  | .starved => .starved
  | .fault fault rest => .fault fault rest
termination_by bits.size
decreasing_by
  have := consumes_nat 8 _h
  omega

/-- Reads what `p` reads if a flag is set. -/
def optional (flags bit : Nat) (p : Parser Bytes) : Parser Bytes :=
  if flags.testBit bit then p else return []

/-- Reads the header of a member. What it says of the file is passed over; its checksum, if it has
one, covers all bytes in front of it. -/
def header : Parser Unit := do
  let magic ← bytes 2
  if magic ≠ [0x1f, 0x8b] then fail .headerMagic
  else do
    let method ← nat 8
    let flags ← nat 8
    if method ≠ 8 then fail .headerMethod
    else if 32 ≤ flags then fail .headerFlags
    else do
      let fixed ← bytes 6
      let extra ← optional flags 2 do
        let low ← nat 8
        let high ← nat 8
        let field ← bytes (low + 256 * high)
        return UInt8.ofNat low :: UInt8.ofNat high :: field
      let name ← optional flags 3 (textFrom [])
      let comment ← optional flags 4 (textFrom [])
      if flags.testBit 1 then do
        let sum ← nat 16
        let covered := magic ++ [UInt8.ofNat method, UInt8.ofNat flags] ++ fixed ++ extra ++ name ++
          comment
        if sum ≠ (Crc32.ofBytes covered).toNat % 65536 then fail .headerChecksum
        else return ()
      else return ()

/-! ## The headers of blocks -/

/-- The two codes of a compressed block. -/
structure Codes where
  /-- The code of literals, lengths and the end of the block. -/
  literals : Code
  /-- The code of distances. -/
  distances : Code

/-- How the content of a block is stored. -/
inductive Block where
  /-- As so many bytes. -/
  | stored (length : Nat)
  /-- As symbols in these codes. -/
  | compressed (codes : Codes)

/-- The codes that need no description. -/
def fixedCodes : Codes where
  literals := .ofLengths (List.replicate 144 8 ++ List.replicate 112 9 ++ List.replicate 24 7 ++
    List.replicate 8 8)
  distances := .ofLengths (List.replicate 32 5)

/-- The order in which the lengths of the code for lengths are given. -/
def lengthOrder : List Nat :=
  [16, 17, 18, 0, 8, 7, 9, 6, 10, 5, 11, 4, 12, 3, 13, 2, 14, 1, 15]

/-- Reads so many numbers of three bits. -/
def threeBits : Nat → Parser (List Nat)
  | 0 => return []
  | n + 1 => do
    let first ← nat 3
    let rest ← threeBits n
    return first :: rest

/-- Reads `left` more lengths behind those in `read`, last one first. Beside the lengths themselves
there are three ways to repeat: the last length, and zeros in two sizes. Bits that are no word give
a zero. -/
def lengthsFrom (code : Code) (left : Nat) (read : List Nat) : Parser (List Nat) :=
  if left = 0 then return read.reverse
  else do
    let symbol ← code.decode
    match symbol with
    | some 16 =>
      let more ← nat 2
      match read with
      | [] => fail .lengthRepeat
      | last :: _ =>
        if left < 3 + more then fail .lengthRepeat
        else lengthsFrom code (left - (3 + more)) (List.replicate (3 + more) last ++ read)
    | some 17 =>
      let more ← nat 3
      if left < 3 + more then fail .lengthRepeat
      else lengthsFrom code (left - (3 + more)) (List.replicate (3 + more) 0 ++ read)
    | some 18 =>
      let more ← nat 7
      if left < 11 + more then fail .lengthRepeat
      else lengthsFrom code (left - (11 + more)) (List.replicate (11 + more) 0 ++ read)
    | some length => lengthsFrom code (left - 1) (length :: read)
    | none => lengthsFrom code (left - 1) (0 :: read)
termination_by left

/-- Reads the description of a pair of codes. -/
def codes : Parser Codes := do
  let literals ← nat 5
  let distances ← nat 5
  let given ← nat 4
  let literals := literals + 257
  let distances := distances + 1
  if 286 < literals ∨ 30 < distances then fail .codeCount
  else do
    let inOrder ← threeBits (given + 4)
    let lengths := (List.range 19).map fun symbol =>
    ((lengthOrder.zip inOrder).lookup symbol).getD 0
    if !Code.Sound false lengths then fail .lengthCode
    else do
      let all ← lengthsFrom (.ofLengths lengths) (literals + distances) []
      let (literalLengths, distanceLengths) := all.splitAt literals
      if all[256]? == some 0 then fail .noEndOfBlock
      else if !Code.Sound true literalLengths then fail .literalCode
      else if !Code.Sound true distanceLengths then fail .distanceCode
      else return ⟨.ofLengths literalLengths, .ofLengths distanceLengths⟩

/-- Reads the header of a block and tells whether it is the last one. -/
def block : Parser (Bool × Block) := do
  let last ← bit
  let kind ← nat 2
  match kind with
  | 0 => do
    align
    let length ← nat 16
    let complement ← nat 16
    if length + complement ≠ 65535 then fail .storedLength else return (last, .stored length)
  | 1 => return (last, .compressed fixedCodes)
  | 2 => do
    let pair ← codes
    return (last, .compressed pair)
  | _ => fail .blockKind

/-! ## The symbols of a block -/

/-- What a compressed block is made of. -/
inductive Symbol where
  /-- A byte of output. -/
  | literal (b : UInt8)
  /-- So many bytes of output as stand so far back. -/
  | reference (length distance : Nat)
  /-- The end of the block. -/
  | endOfBlock

/-- The longest reference. -/
def maxReference : Nat := 258

/-- For each length symbol the shortest length and how many bits to add to it follow. -/
def lengthSymbols : List (Nat × Nat) := [
  (3, 0), (4, 0), (5, 0), (6, 0), (7, 0), (8, 0), (9, 0), (10, 0), (11, 1), (13, 1), (15, 1),
  (17, 1), (19, 2), (23, 2), (27, 2), (31, 2), (35, 3), (43, 3), (51, 3), (59, 3), (67, 4),
  (83, 4), (99, 4), (115, 4), (131, 5), (163, 5), (195, 5), (227, 5), (258, 0)]

/-- For each distance symbol the shortest distance and how many bits to add to it follow. -/
def distanceSymbols : List (Nat × Nat) := [
  (1, 0), (2, 0), (3, 0), (4, 0), (5, 1), (7, 1), (9, 2), (13, 2), (17, 3), (25, 3), (33, 4),
  (49, 4), (65, 5), (97, 5), (129, 6), (193, 6), (257, 7), (385, 7), (513, 8), (769, 8),
  (1025, 9), (1537, 9), (2049, 10), (3073, 10), (4097, 11), (6145, 11), (8193, 12), (12289, 12),
  (16385, 13), (24577, 13)]

/-- Reads a number that a symbol of a table begins. -/
def tableNumber (table : List (Nat × Nat)) (symbol : Nat) (fault : Fault) : Parser Nat :=
  match table[symbol]? with
  | none => fail fault
  | some (least, extra) => do
    let more ← nat extra
    return least + more

/-- Reads a symbol. -/
def symbol (codes : Codes) : Parser Symbol := do
  let s ← codes.literals.decode
  match s with
  | none => fail .literalSymbol
  | some s =>
    if s < 256 then return .literal (UInt8.ofNat s)
    else if s = 256 then return .endOfBlock
    else do
      let length ← tableNumber lengthSymbols (s - 257) .literalSymbol
      let d ← codes.distances.decode
      match d with
      | none => fail .distanceSymbol
      | some d => do
        let distance ← tableNumber distanceSymbols d .distanceSymbol
        return .reference length distance

/-! ## What the parsers use up -/

theorem consumes_textFrom (read : Bytes) : Consumes 0 (textFrom read) := by
  intro bits value rest h
  fun_induction textFrom read bits with
  | case1 read bits rest' hn =>
    have := consumes_nat 8 hn
    simp only [Parse.done.injEq] at h
    rw [← h.2]
    omega
  | case2 read bits b rest' _ hn ih =>
    have := consumes_nat 8 hn
    have := ih h
    omega
  | case3 => simp at h
  | case4 => simp at h

theorem consumes_optional (flags bit : Nat) {p : Parser Bytes} (hp : Consumes 0 p) :
    Consumes 0 (optional flags bit p) := by
  unfold optional
  split
  · exact hp
  · exact consumes_pure []

theorem consumes_header : Consumes 16 header := by
  refine (consumes_bytes 2).andThen fun magic => ?_
  split
  · exact consumes_fail 0 _
  refine ((consumes_nat 8).mono (Nat.zero_le _)).andThen fun method => ?_
  refine ((consumes_nat 8).mono (Nat.zero_le _)).andThen fun flags => ?_
  split
  · exact consumes_fail 0 _
  split
  · exact consumes_fail 0 _
  refine ((consumes_bytes 6).mono (Nat.zero_le _)).andThen fun fixed => ?_
  refine (consumes_optional flags 2 ?_).andThen fun extra => ?_
  · refine ((consumes_nat 8).mono (Nat.zero_le _)).andThen fun low => ?_
    refine ((consumes_nat 8).mono (Nat.zero_le _)).andThen fun high => ?_
    exact ((consumes_bytes _).mono (Nat.zero_le _)).andThen fun _ => consumes_pure _
  refine (consumes_optional flags 3 (consumes_textFrom [])).andThen fun name => ?_
  refine (consumes_optional flags 4 (consumes_textFrom [])).andThen fun comment => ?_
  split
  · refine ((consumes_nat 16).mono (Nat.zero_le _)).andThen fun sum => ?_
    dsimp only
    split
    · exact consumes_fail 0 _
    · exact consumes_pure _
  · exact consumes_pure _

theorem consumes_threeBits (n : Nat) : Consumes 0 (threeBits n) := by
  induction n with
  | zero => exact consumes_pure []
  | succ n ih =>
    exact ((consumes_nat 3).mono (Nat.zero_le _)).andThen fun _ => ih.andThen fun _ =>
      consumes_pure _

theorem consumes_lengthsFrom (code : Code) (left : Nat) (read : List Nat) :
    Consumes 0 (lengthsFrom code left read) := by
  induction left using Nat.strongRecOn generalizing read with
  | ind left ih =>
    unfold lengthsFrom
    split
    · exact consumes_pure _
    · refine ((Code.consumes_decode code).mono (Nat.zero_le _)).andThen fun symbol => ?_
      split
      · refine ((consumes_nat 2).mono (Nat.zero_le _)).andThen fun more => ?_
        split
        · exact consumes_fail 0 _
        · split
          · exact consumes_fail 0 _
          · exact ih _ (by omega) _
      · refine ((consumes_nat 3).mono (Nat.zero_le _)).andThen fun more => ?_
        split
        · exact consumes_fail 0 _
        · exact ih _ (by omega) _
      · refine ((consumes_nat 7).mono (Nat.zero_le _)).andThen fun more => ?_
        split
        · exact consumes_fail 0 _
        · exact ih _ (by omega) _
      · exact ih _ (by omega) _
      · exact ih _ (by omega) _

theorem consumes_codes : Consumes 0 codes := by
  refine ((consumes_nat 5).mono (Nat.zero_le _)).andThen fun literals => ?_
  refine ((consumes_nat 5).mono (Nat.zero_le _)).andThen fun distances => ?_
  refine ((consumes_nat 4).mono (Nat.zero_le _)).andThen fun given => ?_
  dsimp only
  split
  · exact consumes_fail 0 _
  refine (consumes_threeBits _).andThen fun inOrder => ?_
  split
  · exact consumes_fail 0 _
  refine (consumes_lengthsFrom _ _ _).andThen fun all => ?_
  split
  · exact consumes_fail 0 _
  split
  · exact consumes_fail 0 _
  split
  · exact consumes_fail 0 _
  · exact consumes_pure _

theorem consumes_block : Consumes 3 block := by
  refine consumes_bind (j := 1) (k := 2) consumes_bit fun last => ?_
  refine (consumes_nat 2).andThen fun kind => ?_
  split
  · refine consumes_align.andThen fun _ => ?_
    refine ((consumes_nat 16).mono (Nat.zero_le _)).andThen fun length => ?_
    refine ((consumes_nat 16).mono (Nat.zero_le _)).andThen fun complement => ?_
    split
    · exact consumes_fail 0 _
    · exact consumes_pure _
  · exact consumes_pure _
  · exact consumes_codes.andThen fun _ => consumes_pure _
  · exact consumes_fail 0 _

theorem consumes_tableNumber (table : List (Nat × Nat)) (symbol : Nat) (fault : Fault) :
    Consumes 0 (tableNumber table symbol fault) := by
  unfold tableNumber
  split
  · exact consumes_fail 0 _
  · exact ((consumes_nat _).mono (Nat.zero_le _)).andThen fun _ => consumes_pure _

theorem consumes_symbol (codes : Codes) : Consumes 1 (symbol codes) := by
  refine (Code.consumes_decode codes.literals).andThen fun s => ?_
  split
  · exact consumes_fail 0 _
  split
  · exact consumes_pure _
  split
  · exact consumes_pure _
  refine (consumes_tableNumber _ _ _).andThen fun length => ?_
  refine ((Code.consumes_decode codes.distances).mono (Nat.zero_le _)).andThen fun d => ?_
  split
  · exact consumes_fail 0 _
  · exact (consumes_tableNumber _ _ _).andThen fun _ => consumes_pure _

theorem tableNumber_le {symbol : Nat} {fault : Fault} {bits rest : Bits} {length : Nat}
    (h : tableNumber lengthSymbols symbol fault bits = .done length rest) :
    length ≤ maxReference := by
  have htable : ∀ entry ∈ lengthSymbols, entry.1 + 1 <<< entry.2 ≤ maxReference + 1 := by decide
  unfold tableNumber at h
  cases he : lengthSymbols[symbol]? with
  | none => simp only [he] at h; exact absurd h fail_ne_done
  | some entry =>
    simp only [he] at h
    have hle := htable _ (List.mem_of_getElem? he)
    obtain ⟨more, mid, hm, h⟩ := bind_eq_done.mp h
    have := nat_lt hm
    have := (pure_eq_done.mp h).1
    omega

/-- No reference is longer than `maxReference`. -/
theorem symbol_length {codes : Codes} {bits rest : Bits} {length distance : Nat}
    (h : symbol codes bits = .done (.reference length distance) rest) : length ≤ maxReference := by
  obtain ⟨s, mid, _, h⟩ := bind_eq_done.mp h
  cases s with
  | none => exact absurd h fail_ne_done
  | some s =>
    dsimp only at h
    split at h
    · simpa using (pure_eq_done.mp h).1
    split at h
    · simpa using (pure_eq_done.mp h).1
    obtain ⟨l, mid, hl, h⟩ := bind_eq_done.mp h
    obtain ⟨d, mid, _, h⟩ := bind_eq_done.mp h
    cases d with
    | none => exact absurd h fail_ne_done
    | some d =>
      obtain ⟨distance', mid, _, h⟩ := bind_eq_done.mp h
      have := (pure_eq_done.mp h).1
      simp only [Symbol.reference.injEq] at this
      rw [← this.1]
      exact tableNumber_le hl

end TextLines.Gzip
