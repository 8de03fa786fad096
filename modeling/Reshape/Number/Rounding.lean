import Reshape.Number.Binary64

/-!
Rounding an exact quotient to the nearest double.

* `roundDiv`: the nearest whole number to a quotient, a half going to the even neighbour.
* `two_mul_roundDiv_le` and `le_two_mul_roundDiv`: it is at most half of the divisor away.
* `Magnitude.nearest?`: the nearest magnitude to a quotient of units, unless it is too large.
* `Binary64.ofQuotient`: the nearest double to a quotient; a quotient that is too large becomes an
  infinity and one that is too small a zero.
* `Binary64.ofDecimal`: the nearest double to a decimal.
* `Binary64.ofInt`: the nearest double to an integer.
-/

namespace Reshape

/-- The whole number nearest to `num / den`; a half goes to the even neighbour. -/
def roundDiv (num den : Nat) : Nat :=
  let quotient := num / den
  let twice := 2 * (num % den)
  if twice < den then quotient
  else if den < twice then quotient + 1
  else quotient + quotient % 2

/-- The nearest whole number is at most half of the divisor too large. -/
theorem two_mul_roundDiv_le (num : Nat) {den : Nat} (h : 0 < den) :
    2 * (den * roundDiv num den) ≤ 2 * num + den := by
  have hdiv := Nat.div_add_mod num den
  have hmod := Nat.mod_lt num h
  simp only [roundDiv]
  split
  · omega
  · split
    · rw [Nat.mul_add]
      omega
    · obtain hq | hq := Nat.mod_two_eq_zero_or_one (num / den) <;> rw [hq, Nat.mul_add] <;> omega

/-- The nearest whole number is at most half of the divisor too small. -/
theorem le_two_mul_roundDiv (num : Nat) {den : Nat} (h : 0 < den) :
    2 * num ≤ 2 * (den * roundDiv num den) + den := by
  have hdiv := Nat.div_add_mod num den
  have hmod := Nat.mod_lt num h
  simp only [roundDiv]
  split
  · omega
  · split
    · rw [Nat.mul_add]
      omega
    · obtain hq | hq := Nat.mod_two_eq_zero_or_one (num / den) <;> rw [hq, Nat.mul_add] <;> omega

/-- A half goes to the even neighbour. -/
theorem roundDiv_even_of_half {num den : Nat} (h : 2 * (num % den) = den) :
    roundDiv num den % 2 = 0 := by
  simp only [roundDiv, h, Nat.lt_irrefl, if_false]
  omega

/-- The magnitude nearest to `num / den` units, none if that is above the largest magnitude. The
scale is read off the length of the quotient; a significand that rounds up to a power of two
moves to the next scale. -/
def Magnitude.nearest? (num den : Nat) : Option Magnitude :=
  let scale := (num / den).log2 - 52
  let significand := roundDiv num (den * Nat.pow 2 scale)
  if significand = 0x20000000000000 then
    Magnitude.ofParts? 0x10000000000000 (scale + 1)
  else
    Magnitude.ofParts? significand scale

/-- The number of decimal digits of a natural number. -/
def decimalLength (n : Nat) : Nat :=
  (Nat.toDigits 10 n).length

namespace Binary64

/-- The double nearest to `num / den` with the given sign. -/
def ofQuotient (negative : Bool) (num den : Nat) : Binary64 :=
  match Magnitude.nearest? (num * unitsPerOne) den with
  | some m => .finite negative m
  | none => .infinity negative

/-- The double nearest to `digits · 10^exponent` with the given sign. A decimal far outside the
range of the doubles is settled by its length, so that no power beyond the range is computed. -/
def ofDecimal (negative : Bool) (digits : Nat) (exponent : Int) : Binary64 :=
  if digits = 0 then .zero negative
  else if 310 < decimalLength digits + exponent then .infinity negative
  else if decimalLength digits + exponent < -330 then .zero negative
  else if 0 ≤ exponent then ofQuotient negative (digits * Nat.pow 10 exponent.toNat) 1
  else ofQuotient negative digits (Nat.pow 10 (-exponent).toNat)

/-- The double nearest to an integer. -/
def ofInt (n : Int) : Binary64 :=
  ofQuotient (decide (n < 0)) n.natAbs 1

end Binary64

end Reshape
