import Mathlib.Data.Rat.Cast.Defs
import Mathlib.Data.List.DropRight
import Reshape.Number.Numeral

/-!
Numerals read by way of exact decimals.

Whether a numeral spells an integer can be left to a type of exact decimals of a bounded size, of
which only the promises of its operations are known.

* `Numeral.IsLegible` and `Numeral.IsSpelledBy`: the numerals of digits, and their texts.
* `ExactDecimals`: exact decimals of at most 28 places and 96 bits.
* `ExactDecimals.number`: the number that a text spells, read as an exact decimal first.
-/

namespace Reshape

namespace Numeral

/-- The numeral has digits only, and at least one before the point. -/
structure IsLegible (n : Numeral) : Prop where
  /-- There is a digit before the point. -/
  whole_ne_nil : n.whole ≠ []
  /-- All characters before the point are digits. -/
  whole : ∀ c ∈ n.whole, c.isDigit
  /-- All characters after the point are digits. -/
  fraction : ∀ c ∈ n.fraction, c.isDigit

/-- The text is the digits of the numeral with a point between them. Behind the last digit, the point
may be left out. -/
def IsSpelledBy (n : Numeral) (text : List Char) : Prop :=
  text = n.whole ++ '.' :: n.fraction ∨ n.fraction = [] ∧ text = n.whole

/-- The text of the numeral without a point at its end. -/
def text (n : Numeral) : List Char :=
  if n.fraction = [] then n.whole else n.whole ++ '.' :: n.fraction

/-- The exact value of the numeral. -/
def value (n : Numeral) : ℚ :=
  n.coefficient / (Nat.pow 10 n.places : Nat)

end Numeral

/-- Exact decimals of at most 28 places and 96 bits, with what is promised of their operations. -/
structure ExactDecimals where
  /-- A decimal. -/
  Decimal : Type
  /-- The value of a decimal. -/
  value : Decimal → ℚ
  /-- The decimal that a text spells, if it can be held without rounding. -/
  ofText? : List Char → Option Decimal
  /-- Whether a decimal is integral. -/
  isInteger : Decimal → Bool
  /-- The integer of 64 bits that a decimal is, but for digits after the point. -/
  toInt64? : Decimal → Option Int64
  /-- The texts with at most 28 places and a coefficient of at most 96 bits have a decimal. -/
  isSome_ofText?_iff (n : Numeral) : n.IsLegible →
    ((ofText? n.text).isSome ↔ n.places ≤ 28 ∧ n.coefficient < 0x1000000000000000000000000)
  /-- Nothing is rounded. -/
  value_eq (n : Numeral) (d : Decimal) : n.IsLegible → ofText? n.text = some d → value d = n.value
  /-- The integral decimals are those whose value is an integer. -/
  isInteger_iff (d : Decimal) : isInteger d ↔ ∃ k : Int, value d = k
  /-- An integral decimal is an integer of 64 bits if it fits. -/
  toInt64?_eq (d : Decimal) (k : Int) : value d = k → toInt64? d =
    if -0x8000000000000000 ≤ k ∧ k < 0x8000000000000000 then some (Int64.ofInt k) else none

namespace ExactDecimals

/-- The integer that a text spells, without the points at its end. -/
def integer? (D : ExactDecimals) (text : List Char) : Option Int64 :=
  ((D.ofText? (text.rdropWhile (· = '.'))).filter D.isInteger).bind D.toInt64?

/-- The number that a text spells: an integer if it is one as an exact decimal, else the nearest
double. -/
def number (D : ExactDecimals) (text : List Char) : Number :=
  match D.integer? text with
  | some value => .integer value
  | none =>
    let n := Numeral.ofText text
    .float (.ofDecimal false n.coefficient (-n.places))

end ExactDecimals

end Reshape
