import TextLines.Bytes

/-!
# Numbers in arguments

A number is read from the front of a text: blanks, a sign, digits. What follows the digits is
ignored. A text without digits is no number, and neither is one that does not fit.

`unsigned?` reads a number of 64 bits, and a negative one wraps around; `signed?` reads a number of
32 bits with its sign. `ofDigits_decimal` says that the value of digits is the number that they
write.
-/

namespace TextLines

open Bytes

namespace Number

/-- The value of decimal digits. -/
def ofDigits (digits : Bytes) : Nat :=
  digits.foldl (fun n b => 10 * n + (b.toNat - 48)) 0

theorem ofDigits_append (front back : Bytes) :
    ofDigits (front ++ back) = back.foldl (fun n b => 10 * n + (b.toNat - 48)) (ofDigits front) :=
  List.foldl_append

theorem toNat_digit {n : Nat} (h : n < 10) : (digit n).toNat - 48 = n := by
  simp only [digit, h, if_true, UInt8.toNat_ofNat']
  omega

/-- The value of the digits of a number is the number. -/
theorem ofDigits_decimal (n : Nat) : ofDigits (decimal n) = n := by
  fun_induction decimal n with
  | case1 n h => simp [ofDigits, toNat_digit h]
  | case2 n h ih =>
    rw [ofDigits_append, ih, List.foldl_cons, List.foldl_nil,
      toNat_digit (Nat.mod_lt _ (by decide))]
    omega

/-- The sign in front of a text, true for a minus sign, and what follows it. -/
def splitSign : Bytes → Bool × Bytes
  | 45 :: rest => (true, rest)
  | 43 :: rest => (false, rest)
  | text => (false, text)

/-- The number at the front of a text: whether it is negative, and its absolute value. -/
def read? (text : Bytes) : Option (Bool × Nat) :=
  let (negative, rest) := splitSign (text.dropWhile isSpace)
  let digits := rest.takeWhile isDigit
  if digits.isEmpty then none else some (negative, ofDigits digits)

/-- How many numbers there are of 64 bits. -/
def wordSize : Nat := 0x10000000000000000

/-- The number at the front of a text, if it fits into 64 bits. -/
def unsigned? (text : Bytes) : Option Nat :=
  match read? text with
  | some (negative, n) =>
    if wordSize ≤ n then none else some (if negative then (wordSize - n) % wordSize else n)
  | none => none

/-- The number at the front of a text, if it fits into 32 bits with its sign. -/
def signed? (text : Bytes) : Option Int :=
  match read? text with
  | some (negative, n) =>
    let value : Int := if negative then - (n : Int) else n
    if -0x80000000 ≤ value ∧ value < 0x80000000 then some value else none
  | none => none

end Number

end TextLines
