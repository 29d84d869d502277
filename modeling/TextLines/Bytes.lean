/-!
# Byte strings

Everything the library reads, cuts, hashes and prints is a string of bytes: file names on a POSIX
system are not text in any encoding, and neither are the lines of a file whose encoding nobody
declared. This module fixes the type and the few conversions that the other modules share:

* `ascii` turns a literal into bytes, `isDigit` and its relatives classify single
  bytes;
* `decimal` and `hex` are the two number formats that appear in the output;
* `join` puts a separator between pieces.
-/

namespace TextLines

/-- A string of bytes. -/
abbrev Bytes := List UInt8

namespace Bytes

/-- The line feed. -/
def lf : UInt8 := 10

/-- The carriage return. -/
def cr : UInt8 := 13

/-- The separator of path components. -/
def slash : UInt8 := 47

/-- The dot of file name extensions and of the names `.` and `..`. -/
def dot : UInt8 := 46

/-- The bytes of a literal. It is applied to ASCII texts only, where a character is a byte. -/
def ascii (text : String) : Bytes :=
  text.toList.map fun c => UInt8.ofNat c.toNat

/-- An ASCII capital becomes small, any other byte stays. -/
def lowerByte (b : UInt8) : UInt8 :=
  if 65 ≤ b ∧ b ≤ 90 then b + 32 else b

/-- A small ASCII letter becomes a capital, any other byte stays. -/
def upperByte (b : UInt8) : UInt8 :=
  if 97 ≤ b ∧ b ≤ 122 then b - 32 else b

/-- The ASCII digits. -/
def isDigit (b : UInt8) : Bool :=
  48 ≤ b && b ≤ 57

/-- The ASCII letters. -/
def isLetter (b : UInt8) : Bool :=
  (65 ≤ b && b ≤ 90) || (97 ≤ b && b ≤ 122)

/-- The six white space bytes of the C locale. -/
def isSpace (b : UInt8) : Bool :=
  b == 32 || (9 ≤ b && b ≤ 13)

/-! ## Numbers -/

/-- The digit of a number below sixteen, small letters above nine. -/
def digit (n : Nat) : UInt8 :=
  if n < 10 then UInt8.ofNat (48 + n) else UInt8.ofNat (87 + n)

/-- A number in decimal, without leading zeros. -/
def decimal (n : Nat) : Bytes :=
  if n < 10 then [digit n] else decimal (n / 10) ++ [digit (n % 10)]

theorem decimal_of_lt {n : Nat} (h : n < 10) : decimal n = [digit n] := by
  rw [decimal, if_pos h]

/-- Two hexadecimal digits for each byte. -/
def hex (bytes : Bytes) : Bytes :=
  bytes.flatMap fun b => [digit (b.toNat / 16), digit (b.toNat % 16)]

theorem length_hex (bytes : Bytes) : (hex bytes).length = 2 * bytes.length := by
  induction bytes with
  | nil => rfl
  | cons b rest ih =>
    simp only [hex, List.flatMap_cons, List.length_append, List.length_cons, List.length_nil]
      at ih ⊢
    omega

/-! ## Joining and cutting -/

/-- The pieces with `separator` between neighbours and none after the last. -/
def join (separator : Bytes) : List Bytes → Bytes
  | [] => []
  | [piece] => piece
  | piece :: rest => piece ++ separator ++ join separator rest

/-- The part before the first zero byte: what a system call sees of a name. -/
def untilNul (bytes : Bytes) : Bytes :=
  bytes.takeWhile (· != 0)

end Bytes

end TextLines
