/-!
Double-precision binary numbers as exact data.

Every finite double is a whole number of *units*, one unit being `2^-1074`, the least positive
double. So a magnitude is a natural number of a special shape, and comparing or rounding magnitudes
is arithmetic on natural numbers.

* `Magnitude`: a significand of at most 53 bits, shifted by a scale; one such pair for each
  magnitude.
* `Magnitude.units`: the magnitude as a number of units.
* `Binary64`: the two infinities, the numbers that are finite, with a sign also on zero, and one
  value for all that are not numbers.
* `Binary64.toInt?`: the integer that a double denotes, if it denotes one.
* `Binary64.ofBits` and `Binary64.toBits`: the interchange encoding in 64 bits.
-/

namespace Reshape

/-- A finite magnitude `significand · 2^scale`, in units of `2^-1074`. Only a magnitude at the
least scale may have a short significand, so that each magnitude is written in one way. -/
structure Magnitude where
  /-- The leading bits, at most 53 of them. -/
  significand : Nat
  /-- The number of bits by which the significand is shifted. -/
  scale : Nat
  /-- The significand has at most 53 bits. -/
  significand_lt : significand < 0x20000000000000
  /-- The largest scale is that of the largest finite double. -/
  scale_le : scale ≤ 2045
  /-- The significand has all of its 53 bits, or the scale is the least one. -/
  normal : 0x10000000000000 ≤ significand ∨ scale = 0
deriving DecidableEq

namespace Magnitude

/-- The number of units in the magnitude. -/
def units (m : Magnitude) : Nat :=
  m.significand * Nat.pow 2 m.scale

/-- The magnitude of zero. -/
def zero : Magnitude :=
  ⟨0, 0, by decide, by decide, .inr rfl⟩

/-- The magnitude with the given parts, if there is one. -/
def ofParts? (significand scale : Nat) : Option Magnitude :=
  if h : significand < 0x20000000000000 ∧ scale ≤ 2045 ∧
      (0x10000000000000 ≤ significand ∨ scale = 0) then
    some ⟨significand, scale, h.1, h.2.1, h.2.2⟩
  else
    none

/-- The encoding of a magnitude: the scale written in front of the significand. A significand with
its leading bit adds one to the field of the scale, which is how the encoding leaves that bit
out. -/
def toBits (m : Magnitude) : Nat :=
  m.scale * 0x10000000000000 + m.significand

end Magnitude

/-- The number of units in one. -/
def unitsPerOne : Nat :=
  Nat.pow 2 1074

/-- A double-precision number. -/
inductive Binary64 where
  /-- Not a number. -/
  | nan
  /-- An infinity with its sign. -/
  | infinity (negative : Bool)
  /-- A finite number with its sign; zero has either sign. -/
  | finite (negative : Bool) (magnitude : Magnitude)
deriving DecidableEq

namespace Binary64

/-- Zero with the given sign. -/
def zero (negative : Bool) : Binary64 :=
  .finite negative .zero

/-- Whether the number is neither an infinity nor missing. -/
def isFinite : Binary64 → Bool
  | .finite _ _ => true
  | _ => false

/-- Whether the number is written with a minus sign. -/
def isNegative : Binary64 → Bool
  | .nan => false
  | .infinity negative => negative
  | .finite negative _ => negative

/-- The integer that the number denotes, if it denotes one. Both zeros denote zero. -/
def toInt? : Binary64 → Option Int
  | .finite negative m =>
    if m.units % unitsPerOne = 0 then
      let n : Int := m.units / unitsPerOne
      some (if negative then -n else n)
    else
      none
  | _ => none

/-- The number that a 64-bit word encodes: a sign, eleven bits for the scale and 52 bits for the
significand without its leading bit. -/
def ofBits (word : UInt64) : Binary64 :=
  let negative := decide (0x8000000000000000 ≤ word.toNat)
  let magnitude := word.toNat % 0x8000000000000000
  let field := magnitude / 0x10000000000000
  let fraction := magnitude % 0x10000000000000
  if field = 0x7ff then
    if fraction = 0 then .infinity negative else .nan
  else
    let parts :=
      if field = 0 then Magnitude.ofParts? fraction 0
      else Magnitude.ofParts? (0x10000000000000 + fraction) (field - 1)
    match parts with
    | some m => .finite negative m
    | none => .nan

/-- The sign bit of the encoding. -/
def signBit (negative : Bool) : Nat :=
  if negative then 0x8000000000000000 else 0

/-- The 64-bit word that encodes the number. -/
def toBits : Binary64 → UInt64
  | .nan => 0x7ff8000000000000
  | .infinity negative => (signBit negative + 0x7ff0000000000000).toUInt64
  | .finite negative m => (signBit negative + m.toBits).toUInt64

instance : Hashable Binary64 where
  hash x := hash x.toBits

end Binary64

end Reshape
