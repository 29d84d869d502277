import Mathlib.Algebra.Order.Field.Power
import Mathlib.Algebra.Order.Ring.Abs
import Mathlib.Tactic.FieldSimp
import Mathlib.Tactic.Linarith
import Mathlib.Tactic.NormNum
import Mathlib.Tactic.Positivity
import Mathlib.Tactic.Ring
import TextLines.CommandLine.Number
import TextLines.Json.Numeral

/-!
# The size of measured values

`Numeral.value` is the number that a numeral writes. For a double it is no more than the largest
finite double (`Numeral.abs_value_ofBits_le`), so a reader of doubles takes what is written for a
finite number.

Rounding makes some doubles larger, and the largest ones stay in bounds only by their digits: the
largest double of all begins with 1.797693, which six digits round down.

The decimals that are written are digits (`Numeral.isDigit_of_mem_decimals`).
-/

namespace TextLines

open Bytes

/-! ## Lengths -/

theorem lt_pow_length_decimal (n : Nat) : n < 10 ^ (decimal n).length := by
  fun_induction decimal n with
  | case1 n h => exact h
  | case2 n h ih =>
    rw [List.length_append, List.length_singleton, Nat.pow_succ]
    omega

theorem pow_length_decimal_le {n : Nat} (h : 0 < n) : 10 ^ ((decimal n).length - 1) ≤ n := by
  fun_induction decimal n with
  | case1 n => exact h
  | case2 n hn ih =>
    have hpos : 0 < (decimal (n / 10)).length := by
      by_contra hzero
      have hlt := lt_pow_length_decimal (n / 10)
      rw [Nat.eq_zero_of_not_pos hzero] at hlt
      omega
    have hle := ih (by omega)
    calc 10 ^ ((decimal (n / 10) ++ [digit (n % 10)]).length - 1)
      _ = 10 ^ ((decimal (n / 10)).length - 1 + 1) := by
        rw [List.length_append, List.length_singleton, Nat.add_sub_cancel,
          Nat.sub_add_cancel hpos]
      _ = 10 ^ ((decimal (n / 10)).length - 1) * 10 := Nat.pow_succ _ _
      _ ≤ n := by omega

namespace Numeral

theorem powerOfTen_eq (n : Nat) : powerOfTen n = 10 ^ n := by
  induction n with
  | zero => rfl
  | succ n ih => rw [powerOfTen, ih, Nat.pow_succ, Nat.mul_comm]

/-! ## Digits behind the point -/

theorem isDigit_of_mem_lastDigits {n value : Nat} {b : UInt8} (h : b ∈ lastDigits n value) :
    isDigit b = true := by
  have hdigit : ∀ n < 10, isDigit (digit n) = true := by decide
  induction n generalizing value with
  | zero => cases h
  | succ n ih =>
    rcases List.mem_append.mp h with h | h
    · exact ih h
    · rw [List.mem_singleton.mp h]
      exact hdigit _ (Nat.mod_lt _ (by decide))

theorem mem_of_mem_trimZeros {digits : Bytes} {b : UInt8} (h : b ∈ trimZeros digits) :
    b ∈ digits :=
  List.mem_reverse.mp ((List.dropWhile_sublist _).subset (List.mem_reverse.mp h))

/-- The decimals of a measured value are digits. -/
theorem isDigit_of_mem_decimals (bits : UInt64) : ∀ b ∈ (ofBits bits).decimals,
    isDigit b = true := by
  intro b hb
  rw [ofBits] at hb
  split at hb
  · dsimp only at hb
    split at hb
    · cases hb
    · exact isDigit_of_mem_lastDigits (mem_of_mem_trimZeros hb)
  · cases hb

theorem ofDigits_append_digit (digits : Bytes) {n : Nat} (h : n < 10) :
    Number.ofDigits (digits ++ [digit n]) = 10 * Number.ofDigits digits + n := by
  rw [Number.ofDigits_append, List.foldl_cons, List.foldl_nil, Number.toNat_digit h]

theorem ofDigits_lastDigits (n value : Nat) :
    Number.ofDigits (lastDigits n value) = value % 10 ^ n := by
  induction n generalizing value with
  | zero => rw [Nat.pow_zero, Nat.mod_one]; rfl
  | succ n ih =>
    rw [lastDigits, ofDigits_append_digit _ (Nat.mod_lt _ (by decide)), ih, Nat.pow_succ',
      Nat.mod_mul, Nat.add_comm]

/-! ## Values -/

/-- What digits behind the point are worth. -/
def decimalsValue (digits : Bytes) : ℚ :=
  Number.ofDigits digits / 10 ^ digits.length

/-- The number that is written. -/
def value (n : Numeral) : ℚ :=
  (if n.negative then -1 else 1) * ((n.whole + decimalsValue n.decimals) * 10 ^ n.exponent.getD 0)

theorem decimalsValue_nonneg (digits : Bytes) : 0 ≤ decimalsValue digits :=
  div_nonneg (Nat.cast_nonneg _) (by positivity)

theorem abs_value (n : Numeral) :
    |n.value| = (n.whole + decimalsValue n.decimals) * (10 : ℚ) ^ n.exponent.getD 0 := by
  have hsign : |(if n.negative then -1 else 1 : ℚ)| = 1 := by
    split
    · rw [abs_neg, abs_one]
    · exact abs_one
  rw [value, abs_mul, hsign, one_mul, abs_of_nonneg]
  exact mul_nonneg (add_nonneg (Nat.cast_nonneg _) (decimalsValue_nonneg _)) (by positivity)

theorem decimalsValue_append_zero (digits : Bytes) :
    decimalsValue (digits ++ [digit 0]) = decimalsValue digits := by
  rw [decimalsValue, decimalsValue, ofDigits_append_digit _ (by decide), List.length_append,
    List.length_singleton, pow_succ', Nat.add_zero, Nat.cast_mul, Nat.cast_ofNat,
    mul_div_mul_left _ _ (by norm_num)]

theorem trimZeros_append (digits : Bytes) (b : UInt8) : trimZeros (digits ++ [b]) =
    if b = digit 0 then trimZeros digits else digits ++ [b] := by
  rw [trimZeros, List.reverse_append, List.reverse_singleton, List.singleton_append,
    List.dropWhile_cons]
  split
  · rename_i hb
    rw [if_pos (beq_iff_eq.mp hb), trimZeros]
  · rename_i hb
    rw [if_neg fun heq => hb (beq_iff_eq.mpr heq), List.reverse_cons, List.reverse_reverse]

/-- Zeros at the end are worth nothing. -/
theorem decimalsValue_trimZeros (digits : Bytes) :
    decimalsValue (trimZeros digits) = decimalsValue digits := by
  induction digits using List.reverseRecOn with
  | nil => rfl
  | append_singleton digits b ih =>
    rw [trimZeros_append]
    split
    · rename_i hb
      rw [hb, decimalsValue_append_zero, ih]
    · rfl

theorem whole_add_decimals (six places : Nat) :
    ((six / powerOfTen places : Nat) : ℚ) + decimalsValue (trimZeros (lastDigits places six)) =
      six / 10 ^ places := by
  have hsum : ((six / 10 ^ places : Nat) : ℚ) * 10 ^ places + ((six % 10 ^ places : Nat) : ℚ) =
      six := by
    exact_mod_cast Nat.div_add_mod' six (10 ^ places)
  rw [decimalsValue_trimZeros, decimalsValue, ofDigits_lastDigits, length_lastDigits,
    powerOfTen_eq, eq_div_iff (by positivity), add_mul, div_mul_cancel₀ _ (by positivity), hsum]

/-- Six digits have the same value however they are laid out. -/
theorem abs_value_layOut (negative : Bool) (six : Nat) (x : Int) :
    |(layOut negative six x).value| = six * (10 : ℚ) ^ (x - 5) := by
  rw [abs_value]
  unfold layOut
  dsimp only
  rw [whole_add_decimals]
  split
  · rename_i hpositional
    have hplaces : ((5 - x).toNat : Int) = 5 - x :=
      Int.toNat_of_nonneg (by have := of_decide_eq_true hpositional; omega)
    rw [Option.getD_none, zpow_zero, mul_one, div_eq_mul_inv, ← zpow_natCast, hplaces, ← zpow_neg,
      neg_sub]
  · rw [Option.getD_some, zpow_sub₀ (by norm_num), div_mul_eq_mul_div, mul_div_assoc]
    rfl

/-! ## Rounding -/

theorem roundDiv_le_div_add (num : Nat) {den : Nat} (h : 0 < den) :
    (roundDiv num den : ℚ) ≤ num / den + 1 / 2 := by
  have hpos : (0 : ℚ) < den := Nat.cast_pos.mpr h
  have hle : (2 * (roundDiv num den * den) : ℚ) ≤ 2 * num + den := by
    exact_mod_cast roundDiv_le num den h
  rw [div_add_div _ _ hpos.ne' two_ne_zero, le_div_iff₀ (by positivity)]
  linarith

theorem powerOfTen_div (x : Int) :
    (powerOfTen x.toNat : ℚ) / powerOfTen (-x).toNat = 10 ^ x := by
  rw [powerOfTen_eq, powerOfTen_eq]
  push_cast
  rw [← zpow_natCast, ← zpow_natCast, ← zpow_sub₀ (by norm_num)]
  congr 1
  omega

/-- Six digits are those of a number rounded in front of the power they end with. -/
theorem exists_sixDigits (num : Nat) {den : Nat} (h : 0 < den) : ∃ q : Nat,
    ((sixDigits num den).1 : ℚ) * 10 ^ ((sixDigits num den).2 - 5) =
      q * 10 ^ (leadingPower num den - 5) ∧
    (q : ℚ) ≤ num / den / 10 ^ (leadingPower num den - 5) + 1 / 2 := by
  refine ⟨roundDiv (num * powerOfTen (5 - leadingPower num den).toNat)
    (den * powerOfTen (leadingPower num den - 5).toNat), ?_, ?_⟩
  · unfold sixDigits
    dsimp only
    split
    · -- A carry into a seventh digit moves the power and leaves the value as it is.
      rename_i hcarry
      rw [hcarry, show leadingPower num den + 1 - 5 = leadingPower num den - 5 + 1 by omega,
        zpow_add_one₀ (by norm_num)]
      push_cast
      ring
    · rfl
  · have hden : 0 < den * powerOfTen (leadingPower num den - 5).toNat :=
      Nat.mul_pos h (by rw [powerOfTen_eq]; positivity)
    refine (roundDiv_le_div_add _ hden).trans_eq ?_
    have hpower := powerOfTen_div (5 - leadingPower num den)
    rw [neg_sub] at hpower
    rw [Nat.cast_mul, Nat.cast_mul, mul_div_mul_comm, hpower,
      ← neg_sub (leadingPower num den) 5, zpow_neg, ← div_eq_mul_inv]

/-- The first digit of a fraction is that of its power of ten. -/
theorem leadingPower_spec {num den : Nat} (h : den ≤ num) (hden : 0 < den) :
    (10 : ℚ) ^ leadingPower num den ≤ num / den ∧
      (num / den : ℚ) < 10 ^ (leadingPower num den + 1) := by
  have hdiv : 0 < num / den := Nat.div_pos h hden
  have hpos : (0 : ℚ) < den := Nat.cast_pos.mpr hden
  obtain ⟨k, hk⟩ : ∃ k, (decimal (num / den)).length = k + 1 := by
    refine Nat.exists_eq_succ_of_ne_zero fun hzero => ?_
    have hlt := lt_pow_length_decimal (num / den)
    rw [hzero] at hlt
    omega
  have hpower : leadingPower num den = k := by
    rw [leadingPower, if_neg (Nat.not_lt.mpr h), hk]
    push_cast
    omega
  have hle := pow_length_decimal_le hdiv
  have hlt := lt_pow_length_decimal (num / den)
  rw [hk] at hle hlt
  rw [Nat.add_sub_cancel, Nat.le_div_iff_mul_le hden] at hle
  rw [Nat.div_lt_iff_lt_mul hden] at hlt
  rw [hpower, zpow_natCast, le_div_iff₀ hpos, div_lt_iff₀ hpos, zpow_add_one₀ (by norm_num),
    zpow_natCast, ← pow_succ]
  exact ⟨by exact_mod_cast hle, by exact_mod_cast hlt⟩

/-! ## The largest double -/

/-- The largest finite double. -/
def largestDouble : Nat :=
  (2 ^ 53 - 1) * 2 ^ 971

theorem largestDouble_bounds : 10 ^ 308 + 10 ^ 302 ≤ largestDouble ∧ largestDouble < 10 ^ 309 ∧
    179769 * 10 ^ 303 ≤ largestDouble ∧ 2 * largestDouble < 359539 * 10 ^ 303 := by
  decide +kernel

section

variable {num den : Nat}

/-- Below 10³⁰⁸ a rounded number may grow and is still no more than the largest double. -/
theorem round_le_of_lt (hden : 0 < den) (h : (num / den : ℚ) < 10 ^ (308 : Int)) {q : Nat}
    (hq : (q : ℚ) ≤ num / den / 10 ^ (leadingPower num den - 5) + 1 / 2) :
    (q : ℚ) * 10 ^ (leadingPower num den - 5) ≤ largestDouble := by
  have hpower : leadingPower num den ≤ 307 := by
    rcases Nat.lt_or_ge num den with hlt | hge
    · rw [leadingPower, if_pos hlt]
      omega
    · have hlt := (leadingPower_spec hge hden).1.trans_lt h
      have := (zpow_lt_zpow_iff_right₀ (by norm_num)).mp hlt
      omega
  have hunit : (10 : ℚ) ^ (leadingPower num den - 5) ≤ 10 ^ (302 : Int) :=
    zpow_le_zpow_right₀ (by norm_num) (by omega)
  have hpos : (0 : ℚ) < 10 ^ (leadingPower num den - 5) := by positivity
  have hbound : (10 : ℚ) ^ (308 : Int) + 10 ^ (302 : Int) ≤ largestDouble := by
    exact_mod_cast largestDouble_bounds.1
  calc (q : ℚ) * 10 ^ (leadingPower num den - 5)
    _ ≤ (num / den / 10 ^ (leadingPower num den - 5) + 1 / 2) *
        10 ^ (leadingPower num den - 5) := mul_le_mul_of_nonneg_right hq hpos.le
    _ = num / den + 1 / 2 * 10 ^ (leadingPower num den - 5) := by
      rw [add_mul, div_mul_cancel₀ _ hpos.ne']
    _ ≤ 10 ^ (308 : Int) + 10 ^ (302 : Int) := by
      refine add_le_add h.le (le_trans ?_ hunit)
      linarith only [hpos]
    _ ≤ largestDouble := hbound

/-- From 10³⁰⁸ on there are as many units as in the largest double, without its fraction. -/
theorem round_le_of_le (hden : 0 < den) (hlow : (10 : ℚ) ^ (308 : Int) ≤ num / den)
    (hup : (num / den : ℚ) ≤ largestDouble) {q : Nat}
    (hq : (q : ℚ) ≤ num / den / 10 ^ (leadingPower num den - 5) + 1 / 2) :
    (q : ℚ) * 10 ^ (leadingPower num den - 5) ≤ largestDouble := by
  obtain ⟨-, hbelow, hwhole, hfraction⟩ := largestDouble_bounds
  have hge : den ≤ num := by
    have hone : (1 : ℚ) ≤ num / den :=
      (one_le_zpow₀ (by norm_num) (by norm_num)).trans hlow
    exact_mod_cast (one_le_div (Nat.cast_pos.mpr hden)).mp hone
  have hpower : leadingPower num den = 308 := by
    obtain ⟨hle, hlt⟩ := leadingPower_spec hge hden
    have hbelow : (largestDouble : ℚ) < 10 ^ (309 : Int) := by exact_mod_cast hbelow
    have := (zpow_lt_zpow_iff_right₀ (by norm_num)).mp ((hle.trans hup).trans_lt hbelow)
    have := (zpow_lt_zpow_iff_right₀ (by norm_num)).mp (hlow.trans_lt hlt)
    omega
  have hpos : (0 : ℚ) < 10 ^ (303 : Int) := by positivity
  rw [hpower, show (308 - 5 : Int) = 303 by omega] at hq ⊢
  have hunits : q ≤ 179769 := by
    have hfraction : (2 * largestDouble : ℚ) < 359539 * 10 ^ (303 : Int) := by
      exact_mod_cast hfraction
    have hquotient : (num / den / 10 ^ (303 : Int) : ℚ) < 359539 / 2 := by
      rw [div_lt_iff₀ hpos]
      linarith
    have hlt : (q : ℚ) < 179770 := by linarith
    exact Nat.lt_succ_iff.mp (by exact_mod_cast hlt)
  have hwhole : (179769 * 10 ^ (303 : Int) : ℚ) ≤ largestDouble := by exact_mod_cast hwhole
  exact (mul_le_mul_of_nonneg_right (by exact_mod_cast hunits) hpos.le).trans hwhole

/-- A number of no more than the largest double stays so when it is rounded to six digits. -/
theorem sixDigits_le (hden : 0 < den) (h : (num / den : ℚ) ≤ largestDouble) :
    ((sixDigits num den).1 : ℚ) * 10 ^ ((sixDigits num den).2 - 5) ≤ largestDouble := by
  obtain ⟨q, heq, hq⟩ := exists_sixDigits num hden
  rw [heq]
  rcases lt_or_ge (num / den : ℚ) (10 ^ (308 : Int)) with hlt | hge
  · exact round_le_of_lt hden hlt hq
  · exact round_le_of_le hden hge h hq

end

/-- A finite double is no more than the largest. -/
theorem fraction_le {bits : UInt64} (h : isFinite bits = true) :
    0 < (fraction bits).2 ∧ ((fraction bits).1 / (fraction bits).2 : ℚ) ≤ largestDouble := by
  have hfield : powerField bits ≤ 2046 := by
    have hle : powerField bits ≤ 0x7ff := by
      rw [powerField, UInt64.toNat_and]
      exact Nat.and_le_right
    have hne : powerField bits ≠ 0x7ff := bne_iff_ne.mp h
    omega
  have hmantissa : mantissa bits ≤ 2 ^ 53 - 1 := by
    have hle : (bits &&& 0xfffffffffffff).toNat ≤ 0xfffffffffffff := by
      rw [UInt64.toNat_and]
      exact Nat.and_le_right
    rw [mantissa]
    split <;> omega
  have hnum : (fraction bits).1 ≤ largestDouble := by
    show mantissa bits <<< (max (powerField bits) 1 - 1075) ≤ _
    have hpower : 2 ^ (max (powerField bits) 1 - 1075) ≤ 2 ^ 971 :=
      pow_le_pow_right₀ (by decide) (by omega)
    rw [Nat.shiftLeft_eq]
    exact Nat.mul_le_mul hmantissa hpower
  have hden : 0 < (fraction bits).2 := by
    show 0 < 1 <<< (1075 - max (powerField bits) 1)
    rw [Nat.shiftLeft_eq, Nat.one_mul]
    exact Nat.two_pow_pos _
  refine ⟨hden, (div_le_self (Nat.cast_nonneg _) ?_).trans (by exact_mod_cast hnum)⟩
  exact_mod_cast hden

/-- What is written for a double is no more than the largest double. -/
theorem abs_value_ofBits_le (bits : UInt64) : |(ofBits bits).value| ≤ largestDouble := by
  have hzero : ∀ negative, |value { negative, whole := 0 }| ≤ largestDouble := by
    intro negative
    have hnil : decimalsValue [] = 0 := zero_div _
    rw [abs_value]
    show ((0 : Nat) + decimalsValue [] : ℚ) * _ ≤ _
    rw [hnil, Nat.cast_zero, add_zero, zero_mul]
    exact Nat.cast_nonneg _
  rw [ofBits]
  split
  · rename_i hfinite
    obtain ⟨hden, hle⟩ := fraction_le hfinite
    dsimp only
    split
    · exact hzero _
    · rw [abs_value_layOut]
      exact sixDigits_le hden hle
  · exact hzero _

end Numeral

end TextLines
