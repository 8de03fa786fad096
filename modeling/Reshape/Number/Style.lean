import Reshape.Number.Shortest

/-!
The text of a double.

A text has the shortest digits that read back. `FloatStyle` holds what a kind of text decides
beyond that: which numbers are written with an exponent, whether a whole number gets a fraction,
how a positive exponent is marked, and which way a tie goes.

* `FloatStyle.text`: the text of a double in a style.
* `FloatStyle.plain`: the style of messages and tokens, which never has an exponent.
* `FloatStyle.dump`: the style of tree outlines.
-/

namespace Reshape

/-- How a double is written. -/
structure FloatStyle where
  /-- The powers of ten between which a number is written without an exponent; none when it always
  is. The second bound is not included. -/
  positional : Option (Int × Int)
  /-- Whether a whole number is written with the fraction `.0` when it has no exponent. -/
  wholeFraction : Bool
  /-- Whether a positive exponent is written with a plus sign. -/
  plusSign : Bool
  /-- Which of two equally near shortest decimals is taken. -/
  tie : Tie

namespace FloatStyle

/-- Messages and tokens: digits and a point only. -/
def plain : FloatStyle :=
  ⟨none, false, false, .up⟩

/-- Tree outlines: a whole number shows that it is a float, and numbers below `10^-4` or from
`10^16` on have an exponent. -/
def dump : FloatStyle :=
  ⟨some (-4, 16), true, false, .up⟩

/-- A decimal number without an exponent. The point stands after the first `whole` digits. -/
def positionalText (style : FloatStyle) (digits : List Char) (whole : Int) : String :=
  let zeros (n : Int) := List.replicate n.toNat '0'
  String.ofList <|
    if whole ≤ 0 then '0' :: '.' :: (zeros (-whole) ++ digits)
    else if digits.length ≤ whole then
      digits ++ zeros (whole - digits.length) ++ if style.wholeFraction then ['.', '0'] else []
    else digits.take whole.toNat ++ '.' :: digits.drop whole.toNat

/-- A decimal number with one digit before the point and an exponent. -/
def exponentText (style : FloatStyle) (digits : List Char) (exponent : Int) : String :=
  let significand := match digits with
    | [] => []
    | [digit] => [digit]
    | digit :: rest => digit :: '.' :: rest
  let sign := if exponent < 0 then "-" else if style.plusSign then "+" else ""
  String.ofList significand ++ "e" ++ sign ++ exponent.natAbs.repr

/-- The digits of a decimal without the zeros at its end. -/
def trimmedDigits (d : Decimal) : List Char :=
  ((Nat.toDigits 10 d.digits).reverse.dropWhile (· = '0')).reverse

/-- The text of a magnitude. -/
def magnitudeText (style : FloatStyle) (m : Magnitude) : String :=
  let decimal := m.shortest style.tie
  match trimmedDigits decimal with
  | [] => style.positionalText ['0'] 1
  | digits =>
    let whole := decimalLength decimal.digits + decimal.exponent
    match style.positional with
    | none => style.positionalText digits whole
    | some (least, bound) =>
      if least ≤ whole - 1 ∧ whole - 1 < bound then style.positionalText digits whole
      else style.exponentText digits (whole - 1)

/-- A minus sign in front of a negative number. -/
def signText (negative : Bool) : String :=
  if negative then "-" else ""

/-- The text of a double. -/
def text (style : FloatStyle) : Binary64 → String
  | .nan => "NaN"
  | .infinity negative => signText negative ++ "inf"
  | .finite negative m => signText negative ++ style.magnitudeText m

end FloatStyle

end Reshape
