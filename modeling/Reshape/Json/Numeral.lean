import Reshape.Json.Basic
import Reshape.Json.Read

/-!
Numbers in documents.

* `floatStyle`: how floats are written.
* `Number.text`: the text of a number.
* `NumeralParts`: a number as it is written: a sign, digits, a fraction and an exponent.
* `NumeralParts.number?`: the number with given parts.
* `numeral`: reads a number.
-/

namespace Reshape.Json

/-! ### Writing -/

/-- Floats in documents: a whole number shows that it is a float, numbers below `10^-5` or from
`10^16` on have an exponent with its sign, and a tie goes to the even digit. -/
def floatStyle : FloatStyle :=
  ⟨some (-5, 16), true, true, .even⟩

/-- The text of a number. -/
def Number.text : Json.Number → String
  | .integer value _ _ => integerText value
  | .float negative magnitude => floatStyle.text (.finite negative magnitude)

/-! ### Reading -/

/-- A number as it is written. -/
structure NumeralParts where
  /-- Whether there is a minus sign. -/
  negative : Bool
  /-- The digits before the point. -/
  whole : List Char
  /-- The digits after the point, none if there is no point. -/
  fraction : Option (List Char)
  /-- The power of ten, none if there is no exponent. -/
  exponent : Option Int

/-- The number that digits spell. -/
def digitsValue (digits : List Char) : Nat :=
  Nat.ofDigitChars 10 digits 0

/-- The digits at the front of an input, at least one, and the rest. -/
def digits? (input : List Char) : Option (List Char × List Char) :=
  match input.takeWhile Char.isDigit with
  | [] => none
  | digits => some (digits, input.dropWhile Char.isDigit)

/-- The digits before the point: a zero alone, or digits that begin with another one. -/
def wholeDigits? (input : List Char) : Option (List Char × List Char) :=
  match digits? input with
  | some ('0' :: _ :: _, _) => none
  | found => found

/-- A point with digits after it, if there is one. -/
def fraction? : List Char → Option (Option (List Char) × List Char)
  | '.' :: rest => (digits? rest).map fun (digits, rest) => (some digits, rest)
  | input => some (none, input)

/-- The digits of an exponent with their sign, which may be left out. -/
def signedDigits? : List Char → Option (Int × List Char)
  | '-' :: rest => (digits? rest).map fun (digits, rest) => (-digitsValue digits, rest)
  | '+' :: rest => (digits? rest).map fun (digits, rest) => (digitsValue digits, rest)
  | input => (digits? input).map fun (digits, rest) => (digitsValue digits, rest)

/-- A mark and an exponent, if there is one. -/
def exponent? : List Char → Option (Option Int × List Char)
  | 'e' :: rest => (signedDigits? rest).map fun (power, rest) => (some power, rest)
  | 'E' :: rest => (signedDigits? rest).map fun (power, rest) => (some power, rest)
  | input => some (none, input)

/-- The parts of a number after its sign, and the rest of the input. -/
def unsignedParts? (negative : Bool) (input : List Char) : Option (NumeralParts × List Char) := do
  let (whole, input) ← wholeDigits? input
  let (fraction, input) ← fraction? input
  let (exponent, input) ← exponent? input
  return (⟨negative, whole, fraction, exponent⟩, input)

/-- The parts of the number at the front of an input, and the rest of the input. -/
def numeralParts? : List Char → Option (NumeralParts × List Char)
  | '-' :: rest => unsignedParts? true rest
  | input => unsignedParts? false input

/-- The number that a double is in a document, if it is finite. -/
def Number.ofBinary64? : Binary64 → Option Json.Number
  | .finite negative magnitude => some (.float negative magnitude)
  | _ => none

/-- The number with the given parts: an integer if there is neither a point nor an exponent and it
fits 64 bits, else the nearest double. A negative zero is a float, and a number beyond the range of
the doubles is none. -/
def NumeralParts.number? (p : NumeralParts) : Option Json.Number :=
  match p.fraction, p.exponent with
  | none, none =>
    let count := digitsValue p.whole
    let value : Int := if p.negative then -count else count
    if p.negative ∧ count = 0 then some (.float true .zero)
    else if h : -0x8000000000000000 ≤ value ∧ value < 0x10000000000000000 then
      some (.integer value h.1 h.2)
    else Number.ofBinary64? (.ofDecimal p.negative count 0)
  | fraction, exponent =>
    let places := fraction.getD []
    Number.ofBinary64? <| .ofDecimal p.negative (digitsValue (p.whole ++ places))
      (exponent.getD 0 - places.length)

/-- A number. -/
def numeral (input : List Char) : Option (Read Json.Number input) := do
  let (parts, rest) ← numeralParts? input
  let value ← parts.number?
  if h : rest.length < input.length then some ⟨value, rest, h⟩ else none

end Reshape.Json
