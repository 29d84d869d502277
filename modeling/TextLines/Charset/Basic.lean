import TextLines.Charset.Table

/-!
# Characters as bytes

A character set says how the bytes at the front of a text make a character. `Charset.first` is the
whole of it: the bytes are a character, they can never become one, or they are the beginning of
one that more bytes may complete. Everything that decodes text, whole or in pieces, asks this one
question again and again.

`encodeUtf8` is the way back, for UTF-8 alone. UTF-8 is read and written in its full extent of six
bytes and 31 bits, so numbers beyond the last plane pass through unchanged; surrogates do not.
-/

namespace TextLines

/-- The order of the bytes of a unit. -/
inductive ByteOrder where
  | little
  | big
  deriving DecidableEq, Repr

/-- A unit of two bytes. -/
def ByteOrder.unit16 : ByteOrder → UInt8 → UInt8 → Nat
  | .little, a, b => a.toNat + 256 * b.toNat
  | .big, a, b => 256 * a.toNat + b.toNat

/-- A unit of four bytes. -/
def ByteOrder.unit32 (order : ByteOrder) (a b c d : UInt8) : Nat :=
  match order with
  | .little => order.unit16 a b + 65536 * order.unit16 c d
  | .big => 65536 * order.unit16 a b + order.unit16 c d

/-- How bytes make characters. -/
inductive Charset where
  | utf8
  | ascii
  | oneByte (table : Charset.Table)
  | utf16 (order : ByteOrder)
  | utf32 (order : ByteOrder)
  deriving DecidableEq, Repr

namespace Charset

/-- What stands at the front of a text that is not empty. -/
inductive First where
  /-- A character, made of the first byte and so many more. -/
  | character (code extra : Nat)
  /-- Nothing: no bytes that could follow make the first one begin a character. -/
  | malformed
  /-- The beginning of a character, cut off by the end of the text. -/
  | incomplete
  deriving DecidableEq, Repr

/-- Whether a number is one of those reserved for the halves of a pair. -/
def isSurrogate (code : Nat) : Bool :=
  0xd800 ≤ code && code ≤ 0xdfff

/-! ## UTF-8 -/

/-- Whether a byte continues a character. -/
def isContinuation (b : UInt8) : Bool :=
  0x80 ≤ b && b < 0xc0

/-- For a first byte above ASCII: how many bytes must follow, and the payload of the first. -/
def utf8Lead (b : UInt8) : Option (Nat × Nat) :=
  if 0xc2 ≤ b ∧ b < 0xe0 then some (1, b.toNat - 0xc0)
  else if 0xe0 ≤ b ∧ b < 0xf0 then some (2, b.toNat - 0xe0)
  else if 0xf0 ≤ b ∧ b < 0xf8 then some (3, b.toNat - 0xf0)
  else if 0xf8 ≤ b ∧ b < 0xfc then some (4, b.toNat - 0xf8)
  else if 0xfc ≤ b ∧ b < 0xfe then some (5, b.toNat - 0xfc)
  else none

/-- The smallest code point that needs so many continuation bytes. -/
def utf8Least : Nat → Nat
  | 2 => 0x800
  | 3 => 0x10000
  | 4 => 0x200000
  | 5 => 0x4000000
  | _ => 0x80

/-- The payload of continuation bytes behind what has been gathered. -/
def utf8Payload (code : Nat) (bytes : Bytes) : Nat :=
  bytes.foldl (fun code b => code * 64 + (b.toNat - 0x80)) code

/-- The character at the front of UTF-8 text. A text that ends too early is incomplete if all it
has are continuation bytes, whether or not they could be completed to a character. -/
def firstUtf8 (b : UInt8) (rest : Bytes) : First :=
  if b < 0x80 then .character b.toNat 0
  else
    match utf8Lead b with
    | none => .malformed
    | some (extra, payload) =>
      let more := rest.take extra
      if !more.all isContinuation then .malformed
      else if more.length < extra then .incomplete
      else
        let code := utf8Payload payload more
        if code < utf8Least extra || isSurrogate code then .malformed else .character code extra

/-! ## Units of two and of four bytes -/

/-- The character at the front of UTF-16 text: a unit, or two that form a pair. -/
def firstUtf16 (order : ByteOrder) (b : UInt8) (rest : Bytes) : First :=
  match rest with
  | [] => .incomplete
  | b1 :: rest =>
    let high := order.unit16 b b1
    if !isSurrogate high then .character high 1
    else if 0xdc00 ≤ high then .malformed
    else
      match rest with
      | b2 :: b3 :: _ =>
        let low := order.unit16 b2 b3
        if 0xdc00 ≤ low && low ≤ 0xdfff then
          .character (0x10000 + (high - 0xd800) * 0x400 + (low - 0xdc00)) 3
        else .malformed
      | _ => .incomplete

/-- The character at the front of UTF-32 text. -/
def firstUtf32 (order : ByteOrder) (b : UInt8) (rest : Bytes) : First :=
  match rest with
  | b1 :: b2 :: b3 :: _ =>
    let code := order.unit32 b b1 b2 b3
    if 0x110000 ≤ code || isSurrogate code then .malformed else .character code 3
  | _ => .incomplete

/-! ## All character sets -/

/-- What stands at the front of the text `b :: rest`. -/
def first (charset : Charset) (b : UInt8) (rest : Bytes) : First :=
  match charset with
  | .utf8 => firstUtf8 b rest
  | .ascii => if b < 0x80 then .character b.toNat 0 else .malformed
  | .oneByte table =>
    match table.codePoint? b with
    | some code => .character code 0
    | none => .malformed
  | .utf16 order => firstUtf16 order b rest
  | .utf32 order => firstUtf32 order b rest

/-- The last `n` bytes of the UTF-8 form of a code point, each with six bits of it. -/
def utf8Trail (code : Nat) : Nat → Bytes
  | 0 => []
  | n + 1 => UInt8.ofNat (0x80 + (code >>> (6 * n)) % 64) :: utf8Trail code n

/-- The UTF-8 form of a code point. -/
def encodeUtf8 (code : Nat) : Bytes :=
  if code < 0x80 then [UInt8.ofNat code]
  else if code < 0x800 then UInt8.ofNat (0xc0 + code >>> 6) :: utf8Trail code 1
  else if code < 0x10000 then UInt8.ofNat (0xe0 + code >>> 12) :: utf8Trail code 2
  else if code < 0x200000 then UInt8.ofNat (0xf0 + code >>> 18) :: utf8Trail code 3
  else if code < 0x4000000 then UInt8.ofNat (0xf8 + code >>> 24) :: utf8Trail code 4
  else UInt8.ofNat (0xfc + code >>> 30) :: utf8Trail code 5

/-- The character that stands for bytes that are none. -/
def replacement : Bytes := encodeUtf8 0xfffd

theorem length_encodeUtf8_le (code : Nat) : (encodeUtf8 code).length ≤ 6 := by
  unfold encodeUtf8
  repeat' split
  all_goals simp [utf8Trail]

theorem encodeUtf8_ne_nil (code : Nat) : encodeUtf8 code ≠ [] := by
  unfold encodeUtf8
  repeat' split
  all_goals simp

theorem length_replacement : replacement.length = 3 := rfl

end Charset

end TextLines
