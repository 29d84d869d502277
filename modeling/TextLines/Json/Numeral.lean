import TextLines.Bytes

/-!
# Numbers in JSON text

A `Numeral` is a number as JSON writes it: a sign, a whole part, digits behind the point, and a
power of ten. `Numeral.render` writes it down.

Counters are whole numerals (`Numeral.ofNat`). A measured value is a double, and it is written with
six significant digits (`Numeral.ofFloat`): the exact value of the double is rounded to six digits,
a tie to the even neighbour, and zeros at the end are left out. The point stays in place for values
from 10⁻⁴ up to 10⁶, and others are written with a power of ten.

All arithmetic is on natural numbers: a finite double is a fraction (`fraction`), so rounding
it is a division (`roundDiv`), whose answer is off by half a unit at most (`roundDiv_le`,
`le_roundDiv`).
-/

namespace TextLines

open Bytes

/-- A number in JSON text. -/
structure Numeral where
  /-- Whether a minus sign stands in front. -/
  negative : Bool := false
  /-- What stands in front of the point. -/
  whole : Nat
  /-- The digits behind the point, without a point if there are none. -/
  decimals : Bytes := []
  /-- The power of ten, if one is written. -/
  exponent : Option Int := none
  deriving DecidableEq, Repr

namespace Numeral

/-- A number in decimal with at least two digits. -/
def twoDigits (n : Nat) : Bytes :=
  if n < 10 then digit 0 :: decimal n else decimal n

/-- The text of a power of ten, with its sign and at least two digits. -/
def exponentText (x : Int) : Bytes :=
  ascii (if x < 0 then "e-" else "e+") ++ twoDigits x.natAbs

/-- The text of a number. -/
def render (n : Numeral) : Bytes :=
  (if n.negative then ascii "-" else []) ++ decimal n.whole ++
    (if n.decimals.isEmpty then [] else dot :: n.decimals) ++
    (match n.exponent with
      | some x => exponentText x
      | none => [])

/-- A natural number. -/
def ofNat (n : Nat) : Numeral where
  whole := n

/-! ## Six significant digits -/

/-- The nearest natural number to a fraction; of two the even one. -/
def roundDiv (num den : Nat) : Nat :=
  let q := num / den
  let r := num % den
  if den < 2 * r ∨ (2 * r = den ∧ q % 2 = 1) then q + 1 else q

theorem roundDiv_le (num den : Nat) (h : 0 < den) :
    2 * (roundDiv num den * den) ≤ 2 * num + den := by
  have hd := Nat.div_add_mod num den
  have hm := Nat.mod_lt num h
  unfold roundDiv
  dsimp only
  split
  · have : (num / den + 1) * den = den * (num / den) + den := by
      rw [Nat.add_mul, Nat.mul_comm, Nat.one_mul]
    omega
  · have : num / den * den = den * (num / den) := Nat.mul_comm _ _
    omega

theorem le_roundDiv (num den : Nat) (h : 0 < den) :
    2 * num ≤ 2 * (roundDiv num den * den) + den := by
  have hd := Nat.div_add_mod num den
  have hm := Nat.mod_lt num h
  unfold roundDiv
  dsimp only
  split
  · have : (num / den + 1) * den = den * (num / den) + den := by
      rw [Nat.add_mul, Nat.mul_comm, Nat.one_mul]
    omega
  · have : num / den * den = den * (num / den) := Nat.mul_comm _ _
    omega

/-- How often a fraction is multiplied by ten until it is at least one. -/
def shortfall (num den : Nat) : Nat :=
  if 0 < num ∧ num < den then shortfall (10 * num) den + 1 else 0
termination_by den - num

/-- The power of ten of the first digit of a positive fraction. -/
def leadingPower (num den : Nat) : Int :=
  if num < den then - (shortfall num den : Int) else (decimal (num / den)).length - 1

/-- A power of ten. -/
def powerOfTen : Nat → Nat
  | 0 => 1
  | n + 1 => 10 * powerOfTen n

/-- The six digits to which a positive fraction is rounded, as one number, and the power of ten of
the first of them. -/
def sixDigits (num den : Nat) : Nat × Int :=
  let x := leadingPower num den
  let q := roundDiv (num * powerOfTen (5 - x).toNat) (den * powerOfTen (x - 5).toNat)
  if q = 1000000 then (100000, x + 1) else (q, x)

/-- The last `n` digits of a number, with zeros in front if it is shorter. -/
def lastDigits : Nat → Nat → Bytes
  | 0, _ => []
  | n + 1, value => lastDigits n (value / 10) ++ [digit (value % 10)]

theorem length_lastDigits (n value : Nat) : (lastDigits n value).length = n := by
  induction n generalizing value with
  | zero => rfl
  | succ n ih => simp [lastDigits, ih]

/-- Leaves out the zeros at the end. -/
def trimZeros (digits : Bytes) : Bytes :=
  (digits.reverse.dropWhile (· == digit 0)).reverse

/-- The numeral for six digits of which the first has the power of ten `x`. -/
def layOut (negative : Bool) (six : Nat) (x : Int) : Numeral :=
  let positional : Bool := decide (-4 ≤ x ∧ x < 6)
  let places := if positional then (5 - x).toNat else 5
  { negative
    whole := six / powerOfTen places
    decimals := trimZeros (lastDigits places six)
    exponent := if positional then none else some x }

/-! ## Doubles -/

/-- The field of a double that holds its power of two. -/
def powerField (bits : UInt64) : Nat :=
  ((bits >>> 52) &&& 0x7ff).toNat

/-- Whether the bits of a double stand for a number, and not for an infinity or for none. -/
def isFinite (bits : UInt64) : Bool :=
  powerField bits != 0x7ff

/-- The significant bits of a finite double. The highest of them is not stored, except for the
smallest doubles, which do not have it. -/
def mantissa (bits : UInt64) : Nat :=
  (bits &&& 0xfffffffffffff).toNat + (if powerField bits = 0 then 0 else 0x10000000000000)

/-- The absolute value of a finite double as a fraction, numerator first. -/
def fraction (bits : UInt64) : Nat × Nat :=
  let power := max (powerField bits) 1
  (mantissa bits <<< (power - 1075), 1 <<< (1075 - power))

/-- The double with these bits, with six significant digits. What is no finite number counts as
zero. -/
def ofBits (bits : UInt64) : Numeral :=
  if isFinite bits then
    let negative := bits >>> 63 == 1
    let (num, den) := fraction bits
    if num = 0 then { negative, whole := 0 }
    else
      let (six, x) := sixDigits num den
      layOut negative six x
  else { whole := 0 }

/-- A double with six significant digits. -/
def ofFloat (value : Float) : Numeral :=
  ofBits value.toBits

end Numeral

end TextLines
