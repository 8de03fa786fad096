import Reshape.Number.Basic

/-!
What numbers denote.

* `Quantity`: a whole number of units, or an infinity. One unit is `2^-1074`, so that every integer
  and every finite double is a whole number of units.
* `Number.quantity?`: what a number denotes, exactly; nothing if it is not a number.
-/

namespace Reshape

/-- A whole number of units, or an infinity. -/
inductive Quantity where
  /-- Below all numbers. -/
  | negativeInfinity
  /-- A number of units. -/
  | units (count : Int)
  /-- Above all numbers. -/
  | positiveInfinity
deriving DecidableEq

/-- What a double denotes. Both zeros denote zero. -/
def Binary64.quantity? : Binary64 → Option Quantity
  | .nan => none
  | .infinity true => some .negativeInfinity
  | .infinity false => some .positiveInfinity
  | .finite true magnitude => some (.units (-magnitude.units))
  | .finite false magnitude => some (.units magnitude.units)

/-- What a number denotes. -/
def Number.quantity? : Number → Option Quantity
  | .integer value => some (.units (value.toInt * unitsPerOne))
  | .float value => value.quantity?

end Reshape
