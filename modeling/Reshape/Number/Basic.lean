import Reshape.Number.Style

/-!
Numbers of two kinds.

Integers and floats are kept apart, so that a literal `99` is written back as `99`.

* `Number`: an integer of 64 bits or a double.
* `Number.text`: the text of a number in tokens and messages.
-/

namespace Reshape

/-- An integer or a float. -/
inductive Number where
  /-- An integer of 64 bits. -/
  | integer (value : Int64)
  /-- A double. -/
  | float (value : Binary64)
deriving DecidableEq, Hashable

/-- The decimal text of an integer. -/
def integerText (n : Int) : String :=
  if n < 0 then "-" ++ n.natAbs.repr else n.natAbs.repr

namespace Number

/-- The text of a number, a float in a given style. -/
def textWith (style : FloatStyle) : Number → String
  | .integer value => integerText value.toInt
  | .float value => style.text value

/-- The text of a number in tokens and messages. -/
def text : Number → String :=
  textWith .plain

end Number

end Reshape
