import Mathlib.Algebra.Ring.Nat
import TextLines.Proofs.Charset.Conversion

/-!
# Writing text

Everything else about character sets is about reading. Here they are written: `Charset.Spells` says
which bytes a character set has for a character, from the tables of the sets of one byte and from
the definition of the Unicode forms, and `Encoding.Writes` says so of a text, with a mark in front
where the encoding leaves the order of the bytes to one. A character may have several spellings, or
none, and then the encoding cannot represent it.

Whatever spelling is chosen, reading finds the character again, whatever comes behind it
(`Spells.first`). So it finds the text, and its decoding is the UTF-8 form of the text
(`Encoding.decode_of_writes`). The UTF-8 form itself is the one of the core library, which the
encoder of this library agrees with (`encodeUtf8_toNat`).
-/

namespace TextLines

/-- A text in UTF-8. -/
def Bytes.utf8 (text : List Char) : Bytes :=
  text.flatMap String.utf8EncodeChar

@[simp] theorem Bytes.utf8_cons (c : Char) (text : List Char) :
    utf8 (c :: text) = String.utf8EncodeChar c ++ utf8 text :=
  List.flatMap_cons

theorem Bytes.utf8_append (front back : List Char) :
    utf8 (front ++ back) = utf8 front ++ utf8 back :=
  List.flatMap_append

/-! ## Units of two and of four bytes -/

/-- The two bytes of a unit. -/
def ByteOrder.bytes16 : ByteOrder → Nat → Bytes
  | .little, n => [UInt8.ofNat (n % 256), UInt8.ofNat (n / 256)]
  | .big, n => [UInt8.ofNat (n / 256), UInt8.ofNat (n % 256)]

/-- The four bytes of a unit. -/
def ByteOrder.bytes32 (order : ByteOrder) (n : Nat) : Bytes :=
  match order with
  | .little => order.bytes16 (n % 65536) ++ order.bytes16 (n / 65536)
  | .big => order.bytes16 (n / 65536) ++ order.bytes16 (n % 65536)

theorem ByteOrder.exists_bytes16 (order : ByteOrder) {n : Nat} (h : n < 65536) :
    ∃ a b, order.bytes16 n = [a, b] ∧ order.unit16 a b = n := by
  have hlow : (UInt8.ofNat (n % 256)).toNat = n % 256 :=
    UInt8.toNat_ofNat_of_lt' (show n % 256 < 256 by omega)
  have hhigh : (UInt8.ofNat (n / 256)).toNat = n / 256 :=
    UInt8.toNat_ofNat_of_lt' (show n / 256 < 256 by omega)
  cases order with
  | little =>
    refine ⟨_, _, rfl, ?_⟩
    rw [unit16, hlow, hhigh]
    omega
  | big =>
    refine ⟨_, _, rfl, ?_⟩
    rw [unit16, hlow, hhigh]
    omega

theorem ByteOrder.exists_bytes32 (order : ByteOrder) {n : Nat} (h : n < 0x100000000) :
    ∃ a b c d, order.bytes32 n = [a, b, c, d] ∧ order.unit32 a b c d = n := by
  have hlow : n % 65536 < 65536 := Nat.mod_lt _ (by decide)
  have hhigh : n / 65536 < 65536 := by omega
  obtain ⟨a, b, hab, hunit⟩ := order.exists_bytes16 hlow
  obtain ⟨c, d, hcd, hunit'⟩ := order.exists_bytes16 hhigh
  cases order with
  | little =>
    refine ⟨a, b, c, d, ?_, ?_⟩
    · rw [bytes32, hab, hcd]
      rfl
    · rw [unit32, hunit, hunit']
      omega
  | big =>
    refine ⟨c, d, a, b, ?_, ?_⟩
    · rw [bytes32, hab, hcd]
      rfl
    · rw [unit32, hunit, hunit']
      omega

namespace Charset

/-! ## UTF-8 -/

theorem length_utf8Trail (code n : Nat) : (utf8Trail code n).length = n := by
  induction n with
  | zero => rfl
  | succ n ih => rw [utf8Trail, List.length_cons, ih]

/-- An ASCII character is a byte, and the same number as a byte. -/
theorem toNat_asciiByte {code : Nat} (h : code < 0x80) :
    (UInt8.ofNat code).toNat = code ∧ UInt8.ofNat code < 0x80 := by
  have hbyte : (UInt8.ofNat code).toNat = code :=
    UInt8.toNat_ofNat_of_lt' (show code < 256 by omega)
  refine ⟨hbyte, ?_⟩
  rw [UInt8.lt_iff_toNat_lt, hbyte]
  exact h

theorem toNat_trailByte (k : Nat) : (UInt8.ofNat (0x80 + k % 64)).toNat = 0x80 + k % 64 :=
  UInt8.toNat_ofNat_of_lt' (show 0x80 + k % 64 < 256 by omega)

theorem isContinuation_of_mem {code n : Nat} {b : UInt8} (h : b ∈ utf8Trail code n) :
    isContinuation b = true := by
  induction n with
  | zero => cases h
  | succ n ih =>
    rw [utf8Trail] at h
    rcases List.mem_cons.mp h with rfl | h
    · have hbyte := toNat_trailByte (code >>> (6 * n))
      rw [isContinuation, Bool.and_eq_true, decide_eq_true_eq, decide_eq_true_eq,
        UInt8.le_iff_toNat_le, UInt8.lt_iff_toNat_lt, hbyte]
      simp only [UInt8.reduceToNat]
      omega
    · exact ih h

/-- The trail of a code point brings back what the first byte has not. -/
theorem utf8Payload_utf8Trail (code n : Nat) :
    utf8Payload (code / 64 ^ n) (utf8Trail code n) = code := by
  induction n with
  | zero => simp [utf8Trail, utf8Payload]
  | succ n ih =>
    have hstep : code / 64 ^ (n + 1) * 64 + (code >>> (6 * n)) % 64 = code / 64 ^ n := by
      rw [Nat.shiftRight_eq_div_pow, Nat.pow_mul, Nat.pow_succ, ← Nat.div_div_eq_div_mul]
      show code / 64 ^ n / 64 * 64 + code / 64 ^ n % 64 = code / 64 ^ n
      omega
    have hbyte := toNat_trailByte (code >>> (6 * n))
    rw [utf8Trail, utf8Payload, List.foldl_cons, hbyte, Nat.add_sub_cancel_left, hstep]
    exact ih

/-- A first byte with the trail that it asks for is a character. -/
theorem firstUtf8_of_lead {b : UInt8} {code extra : Nat} (hb : 0x80 ≤ b)
    (hlead : utf8Lead b = some (extra, code / 64 ^ extra)) (hleast : utf8Least extra ≤ code)
    (hscalar : isSurrogate code = false) (more : Bytes) :
    firstUtf8 b (utf8Trail code extra ++ more) = .character code extra := by
  have htake : (utf8Trail code extra ++ more).take extra = utf8Trail code extra :=
    List.take_left' (length_utf8Trail code extra)
  have hall : (utf8Trail code extra).all isContinuation = true :=
    List.all_eq_true.mpr fun _ => isContinuation_of_mem
  have hlength : ¬ (utf8Trail code extra).length < extra := by
    rw [length_utf8Trail]
    exact Nat.lt_irrefl extra
  have hleast' : ¬ code < utf8Least extra := Nat.not_lt.mpr hleast
  rw [firstUtf8, if_neg (UInt8.not_lt.mpr hb), hlead]
  simp only [htake, hall, hlength, utf8Payload_utf8Trail, hleast', hscalar, Bool.not_true,
    Bool.false_eq_true, if_false, decide_false, Bool.or_self]

/-- The first byte of a character with so many bytes behind it. -/
theorem utf8Lead_ofNat : ∀ extra < 6, ∀ payload < 2 ^ (6 - extra),
    0 < extra ∧ (extra = 1 → 2 ≤ payload) →
      0x80 ≤ UInt8.ofNat (256 - 2 ^ (7 - extra) + payload) ∧
        utf8Lead (UInt8.ofNat (256 - 2 ^ (7 - extra) + payload)) = some (extra, payload) := by
  decide

/-- What is written for a code point is one byte, or a first byte with the trail it asks for. -/
theorem encodeUtf8_cases {code : Nat} (h : code < 0x80000000) :
    (code < 0x80 ∧ encodeUtf8 code = [UInt8.ofNat code]) ∨
      ∃ b extra, 0x80 ≤ b ∧ utf8Lead b = some (extra, code / 64 ^ extra) ∧
        utf8Least extra ≤ code ∧ encodeUtf8 code = b :: utf8Trail code extra := by
  have hlong : ∀ extra < 6, 0 < extra → code / 64 ^ extra < 2 ^ (6 - extra) →
      utf8Least extra ≤ code → ∃ b extra', 0x80 ≤ b ∧
        utf8Lead b = some (extra', code / 64 ^ extra') ∧ utf8Least extra' ≤ code ∧
        UInt8.ofNat (256 - 2 ^ (7 - extra) + code / 64 ^ extra) :: utf8Trail code extra =
          b :: utf8Trail code extra' := by
    intro extra hextra hpos hpayload hleast
    have htwo : extra = 1 → 2 ≤ code / 64 ^ extra := by
      rintro rfl
      have hleast' : 0x80 ≤ code := hleast
      omega
    obtain ⟨hb, hlead⟩ := utf8Lead_ofNat extra hextra _ hpayload ⟨hpos, htwo⟩
    exact ⟨_, extra, hb, hlead, hleast, rfl⟩
  simp only [encodeUtf8, Nat.shiftRight_eq_div_pow]
  split
  · rename_i hsmall
    exact .inl ⟨hsmall, rfl⟩
  refine .inr ?_
  rename_i h1
  split
  · exact hlong 1 (by decide) (by decide) (by omega) (Nat.le_of_not_lt h1)
  rename_i h2
  split
  · exact hlong 2 (by decide) (by decide) (by omega) (Nat.le_of_not_lt h2)
  rename_i h3
  split
  · exact hlong 3 (by decide) (by decide) (by omega) (Nat.le_of_not_lt h3)
  rename_i h4
  split
  · exact hlong 4 (by decide) (by decide) (by omega) (Nat.le_of_not_lt h4)
  · rename_i h5
    exact hlong 5 (by decide) (by decide) (by omega) (Nat.le_of_not_lt h5)

/-- What is written for a code point is read as that code point. -/
theorem firstUtf8_encodeUtf8 {code : Nat} (hcode : code < 0x80000000)
    (hscalar : isSurrogate code = false) :
    ∃ b rest, encodeUtf8 code = b :: rest ∧
      ∀ more, firstUtf8 b (rest ++ more) = .character code rest.length := by
  rcases encodeUtf8_cases hcode with ⟨hsmall, hbytes⟩ | ⟨b, extra, hb, hlead, hleast, hbytes⟩
  · refine ⟨_, _, hbytes, ?_⟩
    intro more
    obtain ⟨hbyte, hlt⟩ := toNat_asciiByte hsmall
    rw [firstUtf8, if_pos hlt, hbyte]
    rfl
  · refine ⟨_, _, hbytes, ?_⟩
    intro more
    rw [length_utf8Trail]
    exact firstUtf8_of_lead hb hlead hleast hscalar more

/-- A character is a code point that is no half of a pair. -/
theorem isScalar_toNat (c : Char) : c.toNat < 0x110000 ∧ isSurrogate c.toNat = false := by
  have hvalid : c.toNat < 0xd800 ∨ 0xdfff < c.toNat ∧ c.toNat < 0x110000 := c.valid
  refine ⟨by omega, ?_⟩
  rw [isSurrogate, Bool.and_eq_false_iff, decide_eq_false_iff_not, decide_eq_false_iff_not]
  omega

/-- The encoder agrees with the core library on all characters. -/
theorem encodeUtf8_toNat (c : Char) : encodeUtf8 c.toNat = String.utf8EncodeChar c := by
  obtain ⟨hcode, -⟩ := isScalar_toNat c
  have hone : c.toNat < 0x80 ↔ c.toNat ≤ 127 := Nat.lt_succ_iff
  have htwo : c.toNat < 0x800 ↔ c.toNat ≤ 2047 := Nat.lt_succ_iff
  have hthree : c.toNat < 0x10000 ↔ c.toNat ≤ 65535 := Nat.lt_succ_iff
  have hfour : c.toNat < 0x200000 := by omega
  simp only [encodeUtf8, String.utf8EncodeChar, utf8Trail, Char.toNat_val,
    Nat.shiftRight_eq_div_pow, hone, htwo, hthree, if_pos hfour]
  have hbyte : ∀ {a b : Nat}, a = b → UInt8.ofNat a = UInt8.ofNat b := congrArg UInt8.ofNat
  split
  · rfl
  split
  · simp only [List.cons.injEq, and_true]
    exact ⟨hbyte (by omega), hbyte (by omega)⟩
  split
  · simp only [List.cons.injEq, and_true]
    exact ⟨hbyte (by omega), hbyte (by omega), hbyte (by omega)⟩
  · simp only [List.cons.injEq, and_true]
    exact ⟨hbyte (by omega), hbyte (by omega), hbyte (by omega), hbyte (by omega)⟩

/-- The bytes of a character beyond ASCII are beyond ASCII. -/
theorem le_of_mem_utf8EncodeChar {c : Char} (hc : 0x80 ≤ c.toNat) {b : UInt8}
    (h : b ∈ String.utf8EncodeChar c) : 0x80 ≤ b := by
  obtain ⟨hcode, -⟩ := isScalar_toNat c
  have hcode' : c.toNat < 0x80000000 := by omega
  rw [← encodeUtf8_toNat] at h
  rcases encodeUtf8_cases hcode' with ⟨hsmall, -⟩ | ⟨lead, extra, hlead, -, -, hbytes⟩
  · omega
  · rw [hbytes] at h
    rcases List.mem_cons.mp h with rfl | h
    · exact hlead
    · have hcontinues := isContinuation_of_mem h
      rw [isContinuation, Bool.and_eq_true, decide_eq_true_eq] at hcontinues
      exact hcontinues.1

/-! ## All character sets -/

/-- The bytes that a character set has for a character. -/
inductive Spells : Charset → Char → Bytes → Prop where
  | utf8 (c : Char) : Spells .utf8 c (String.utf8EncodeChar c)
  | ascii {c : Char} (h : c.toNat < 0x80) : Spells .ascii c [UInt8.ofNat c.toNat]
  /-- Any byte that the table has for it. -/
  | oneByte {table : Table} {c : Char} {b : UInt8} (h : table.codePoint? b = some c.toNat) :
      Spells (.oneByte table) c [b]
  /-- A single unit. -/
  | unit16 {order : ByteOrder} {c : Char} (h : c.toNat < 0x10000) :
      Spells (.utf16 order) c (order.bytes16 c.toNat)
  /-- The two halves of a pair, each with ten bits. -/
  | pair16 {order : ByteOrder} {c : Char} (h : 0x10000 ≤ c.toNat) :
      Spells (.utf16 order) c (order.bytes16 (0xd800 + (c.toNat - 0x10000) / 0x400) ++
        order.bytes16 (0xdc00 + (c.toNat - 0x10000) % 0x400))
  | unit32 {order : ByteOrder} (c : Char) : Spells (.utf32 order) c (order.bytes32 c.toNat)

/-- The two halves of a pair are read as one character. -/
theorem firstUtf16_pair (order : ByteOrder) (high low : Nat) (hhigh : 0xd800 ≤ high)
    (hhigh' : high < 0xdc00) (hlow : 0xdc00 ≤ low) (hlow' : low ≤ 0xdfff) :
    ∃ b rest, order.bytes16 high ++ order.bytes16 low = b :: rest ∧
      ∀ more, firstUtf16 order b (rest ++ more) =
        .character (0x10000 + (high - 0xd800) * 0x400 + (low - 0xdc00)) rest.length := by
  obtain ⟨a, b, hbytes, hunit⟩ := order.exists_bytes16 (show high < 65536 by omega)
  obtain ⟨a', b', hbytes', hunit'⟩ := order.exists_bytes16 (show low < 65536 by omega)
  have hsurrogate : isSurrogate high = true := by
    rw [isSurrogate, Bool.and_eq_true, decide_eq_true_eq, decide_eq_true_eq]
    omega
  have hfirst : ¬ 0xdc00 ≤ high := Nat.not_le.mpr hhigh'
  have hsecond : (decide (0xdc00 ≤ low) && decide (low ≤ 0xdfff)) = true := by
    rw [Bool.and_eq_true, decide_eq_true_eq, decide_eq_true_eq]
    exact ⟨hlow, hlow'⟩
  rw [hbytes, hbytes']
  refine ⟨a, [b, a', b'], rfl, ?_⟩
  intro more
  simp only [firstUtf16, List.cons_append, List.nil_append, hunit, hunit', hsurrogate, hfirst,
    hsecond, Bool.not_true, Bool.false_eq_true, if_false, if_true]
  rfl

/-- The bytes of a character are read as that character, whatever comes behind them. -/
theorem Spells.first {charset : Charset} {c : Char} {bytes : Bytes} (h : charset.Spells c bytes) :
    ∃ b rest, bytes = b :: rest ∧
      ∀ more, charset.first b (rest ++ more) = .character c.toNat rest.length := by
  obtain ⟨hcode, hscalar⟩ := isScalar_toNat c
  cases h with
  | utf8 =>
    have hcode' : c.toNat < 0x80000000 := by omega
    rw [← encodeUtf8_toNat]
    exact firstUtf8_encodeUtf8 hcode' hscalar
  | ascii hsmall =>
    refine ⟨_, [], rfl, ?_⟩
    intro more
    obtain ⟨hbyte, hlt⟩ := toNat_asciiByte hsmall
    rw [Charset.first, if_pos hlt, hbyte]
    rfl
  | oneByte hentry =>
    refine ⟨_, [], rfl, ?_⟩
    intro more
    simp only [Charset.first, hentry]
    rfl
  | @unit16 order _ hsmall =>
    obtain ⟨a, b, hbytes, hunit⟩ := order.exists_bytes16 hsmall
    refine ⟨a, [b], hbytes, ?_⟩
    intro more
    simp only [Charset.first, firstUtf16, List.cons_append, List.nil_append, hunit, hscalar,
      Bool.not_false, if_true]
    rfl
  | @pair16 order _ hlarge =>
    have hlow : (c.toNat - 0x10000) % 0x400 < 0x400 := Nat.mod_lt _ (by decide)
    have hcode' : 0x10000 + (0xd800 + (c.toNat - 0x10000) / 0x400 - 0xd800) * 0x400 +
        (0xdc00 + (c.toNat - 0x10000) % 0x400 - 0xdc00) = c.toNat := by omega
    have hpair := firstUtf16_pair order (0xd800 + (c.toNat - 0x10000) / 0x400)
      (0xdc00 + (c.toNat - 0x10000) % 0x400) (by omega) (by omega) (by omega) (by omega)
    rw [hcode'] at hpair
    exact hpair
  | @unit32 order =>
    obtain ⟨a, b, c', d, hbytes, hunit⟩ := order.exists_bytes32 (n := c.toNat) (by omega)
    refine ⟨a, [b, c', d], hbytes, ?_⟩
    intro more
    have hcode' : ¬ 0x110000 ≤ c.toNat := Nat.not_le.mpr hcode
    simp only [Charset.first, firstUtf32, List.cons_append, List.nil_append, hunit, hscalar,
      hcode', decide_false, Bool.or_self, Bool.false_eq_true, if_false]
    rfl

/-- The bytes are a text in a character set. -/
inductive Writes (charset : Charset) : List Char → Bytes → Prop where
  | nil : Writes charset [] []
  | cons {c : Char} {text : List Char} {front rest : Bytes} (hfront : charset.Spells c front)
      (hrest : Writes charset text rest) : Writes charset (c :: text) (front ++ rest)

/-- What is written is read again. -/
theorem decode_of_writes {charset : Charset} {text : List Char} {bytes : Bytes}
    (h : charset.Writes text bytes) : charset.decode bytes = Bytes.utf8 text := by
  induction h with
  | nil => exact decode_nil charset
  | @cons c text front rest hfront _ ih =>
    obtain ⟨b, others, rfl, hfirst⟩ := hfront.first
    rw [List.cons_append, decode_character (hfirst rest), List.drop_left, ih, Bytes.utf8_cons,
      encodeUtf8_toNat]

end Charset

namespace Encoding

/-- A name with one slash at most has no options. -/
theorem dropOptions_of_lt {reversed : Bytes}
    (h : (reversed.dropWhile isTrailing).count Bytes.slash < 2) :
    dropOptions reversed = reversed.dropWhile isTrailing := by
  rw [dropOptions, if_neg (Nat.not_le.mpr h)]

/-- The bytes are a text in an encoding. Where the order of the bytes is left to a mark there is
one in front, which is the character U+FEFF in that order. -/
inductive Writes : Encoding → List Char → Bytes → Prop where
  | plain {charset : Charset} {text : List Char} {bytes : Bytes} (h : charset.Writes text bytes) :
      Writes (.plain charset) text bytes
  | markedUtf16 {text : List Char} {bytes : Bytes} (order : ByteOrder)
      (h : (Charset.utf16 order).Writes text bytes) :
      Writes .markedUtf16 text (order.bytes16 0xfeff ++ bytes)
  | markedUtf32 {text : List Char} {bytes : Bytes} (order : ByteOrder)
      (h : (Charset.utf32 order).Writes text bytes) :
      Writes .markedUtf32 text (order.bytes32 0xfeff ++ bytes)

/-- The decoding of a text is its UTF-8 form. -/
theorem decode_of_writes {encoding : Encoding} {text : List Char} {bytes : Bytes}
    (h : encoding.Writes text bytes) : encoding.decode bytes = Bytes.utf8 text := by
  cases h with
  | plain h => exact (decode_plain _ bytes).trans (Charset.decode_of_writes h)
  | @markedUtf16 _ bytes order h =>
    have hsettle : Encoding.markedUtf16.settle (order.bytes16 0xfeff ++ bytes) =
        some (.utf16 order, bytes) := by
      cases order <;> rfl
    exact (decode_of_settle hsettle).trans (Charset.decode_of_writes h)
  | @markedUtf32 _ bytes order h =>
    have hsettle : Encoding.markedUtf32.settle (order.bytes32 0xfeff ++ bytes) =
        some (.utf32 order, bytes) := by
      cases order <;> rfl
    exact (decode_of_settle hsettle).trans (Charset.decode_of_writes h)

end Encoding

end TextLines
