import Reshape.Number.Basic

/-!
Numerals: digits, which may have a point after them and more digits after the point.

* `Numeral`: the digits before and after the point.
* `Numeral.integer?`: the integer that a numeral spells exactly, as long as it has at most 28
  places, a coefficient of at most 96 bits and a value of at most 63 bits.
* `Numeral.toNumber`: that integer, or else the nearest double.
* `Number.ofText`: the number that a text of that form spells.
-/

namespace Reshape

/-- A decimal numeral without sign and exponent. A point with no digits after it does not show. -/
structure Numeral where
  /-- The digits before the point. -/
  whole : List Char
  /-- The digits after the point. -/
  fraction : List Char
deriving DecidableEq

namespace Numeral

/-- The numeral with the given text. -/
def ofText (text : List Char) : Numeral :=
  ⟨text.takeWhile Char.isDigit, (text.dropWhile Char.isDigit).drop 1⟩

/-- The number of digits after the point. -/
def places (n : Numeral) : Nat :=
  n.fraction.length

/-- All digits read as one natural number, without the point. -/
def coefficient (n : Numeral) : Nat :=
  Nat.ofDigitChars 10 (n.whole ++ n.fraction) 0

/-- The integer that the numeral denotes exactly. A numeral of more than 28 places, or whose
coefficient needs more than 96 bits, is not looked at as an exact decimal. -/
def integer? (n : Numeral) : Option Int64 :=
  if n.places ≤ 28 ∧ n.coefficient < 0x1000000000000000000000000 then
    let unit := Nat.pow 10 n.places
    if n.coefficient % unit = 0 ∧ n.coefficient / unit < 0x8000000000000000 then
      some (Int64.ofNat (n.coefficient / unit))
    else
      none
  else
    none

/-- The number that the numeral spells: an integer if it is one exactly, else the nearest double,
which is an infinity beyond the range of the doubles. -/
def toNumber (n : Numeral) : Number :=
  match n.integer? with
  | some value => .integer value
  | none => .float (.ofDecimal false n.coefficient (-n.places))

end Numeral

/-- The number that a text spells: digits, or digits and a point, or digits on both sides of a
point. -/
def Number.ofText (text : List Char) : Number :=
  (Numeral.ofText text).toNumber

end Reshape
