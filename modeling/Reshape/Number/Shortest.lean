import Reshape.Number.Rounding

/-!
The shortest decimal that reads back as a given double.

A decimal reads back as a magnitude when it lies between the halfway points to the magnitude's two
neighbours; the halfway points themselves count when the significand is even, since a half goes to
the even neighbour. On the grid of decimals with a given number of digits only the two grid points
next to the magnitude need to be looked at. The first grid with a hit wins, and of two hits the
nearer one.

* `Decimal`: a natural number times a power of ten.
* `Tie`: which of two equally near decimals is taken.
* `Magnitude.shortest`: the shortest decimal, nearest among the shortest.
-/

namespace Reshape

/-- The decimal `digits · 10^exponent`. -/
structure Decimal where
  /-- The digits, read as one natural number. -/
  digits : Nat
  /-- The power of ten of the last digit. -/
  exponent : Int
deriving DecidableEq

/-- Which of two equally near grid points is taken. -/
inductive Tie where
  /-- The one with an even last digit. -/
  | even
  /-- The larger one. -/
  | up
deriving DecidableEq

namespace Magnitude

/-- The halfway points to the neighbours of a magnitude, in quarters of a unit. The neighbour below
a power of two is nearer, unless the scale is the least one. -/
structure Interval where
  /-- The halfway point to the neighbour below. -/
  low : Nat
  /-- The magnitude itself. -/
  centre : Nat
  /-- The halfway point to the neighbour above. -/
  high : Nat
  /-- Whether the halfway points belong to the interval. -/
  closed : Bool

/-- The interval of the numbers that read back as the magnitude. -/
def interval (m : Magnitude) : Interval :=
  let step := Nat.pow 2 m.scale
  let centre := 4 * m.significand * step
  let below := if m.significand = 0x10000000000000 ∧ 0 < m.scale then step else 2 * step
  ⟨centre - below, centre, centre + 2 * step, m.significand % 2 = 0⟩

/-- Whether `point / stretch` quarters of a unit lie in the interval. -/
def Interval.holds (i : Interval) (stretch point : Nat) : Bool :=
  if i.closed then i.low * stretch ≤ point && point ≤ i.high * stretch
  else i.low * stretch < point && point < i.high * stretch

/-- The grid point that reads back, of the two next to the magnitude on the grid of the multiples
of `step / stretch` quarters of a unit; the nearer one if both do. -/
def Interval.onGrid? (i : Interval) (tie : Tie) (step stretch : Nat) : Option Nat :=
  let centre := i.centre * stretch
  let floor := centre / step
  let below := i.holds stretch (floor * step)
  let above := i.holds stretch ((floor + 1) * step)
  if below && above then
    let twice := 2 * (centre % step)
    let lower := match tie with
      | .even => twice < step || (twice = step && floor % 2 = 0)
      | .up => twice < step
    some (if lower then floor else floor + 1)
  else if below then some floor
  else if above then some (floor + 1)
  else none

/-- The power of ten just above the magnitude: a magnitude other than zero lies between
`10^(ceiling - 1)` and `10^ceiling`. Shifted by 324 places, every such magnitude has digits before
the point, and the number of these settles it. -/
def ceiling (m : Magnitude) : Int :=
  (decimalLength (m.units * Nat.pow 10 324 / unitsPerOne) : Int) - 324

/-- The grid of the decimals whose last digit stands for `10^exponent`, as a step and a stretch. -/
def grid (exponent : Int) : Nat × Nat :=
  if 0 ≤ exponent then (4 * unitsPerOne * Nat.pow 10 exponent.toNat, 1)
  else (4 * unitsPerOne, Nat.pow 10 (-exponent).toNat)

/-- The decimal of at most `count` digits that reads back as the magnitude, if there is one. -/
def withDigits? (m : Magnitude) (tie : Tie) (count : Nat) : Option Decimal :=
  let exponent := m.ceiling - count
  let (step, stretch) := grid exponent
  (m.interval.onGrid? tie step stretch).map (⟨·, exponent⟩)

/-- The decimal with the fewest digits that reads back as the magnitude, the nearest one among
those. Seventeen digits always suffice. -/
def shortest (m : Magnitude) (tie : Tie) : Decimal :=
  if m.significand = 0 then ⟨0, 0⟩
  else ((List.range 17).findSome? fun n => m.withDigits? tie (n + 1)).getD ⟨0, 0⟩

end Magnitude

end Reshape
