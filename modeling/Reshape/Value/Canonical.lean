import Reshape.Value.Entries
import Reshape.Value.Equality

/-!
Values that mean the same.

An integer and a float mean the same if they denote the same number, and the order of entries does
not matter. What is not a number means nothing, not even the same as itself.

* `Value.canonical?`: one representative for all values that mean the same: integers wherever an
  integer denotes the number, entries in the order of their keys. There is none for a value that
  holds something that is not a number.
* `Value.alike`: whether two values have the same representative.
-/

namespace Reshape

/-- The representative of a number: a float that denotes an integer of 64 bits becomes that
integer. -/
def Number.canonical? : Number → Option Number
  | .integer value => some (.integer value)
  | .float .nan => none
  | .float value =>
    match value.toInt? with
    | some n =>
      if -0x8000000000000000 ≤ n ∧ n < 0x8000000000000000 then some (.integer (Int64.ofInt n))
      else some (.float value)
    | none => some (.float value)

namespace Value

mutual

/-- The representative of a value. -/
def canonical? : Value → Option Value
  | .null => some .null
  | .boolean value => some (.boolean value)
  | .number value => value.canonical?.map .number
  | .string text => some (.string text)
  | .array items => (canonicalItems? items).map .array
  | .object entries => (canonicalEntries? entries).map fun es => .object (Entries.sort es)

/-- The representatives of the items of an array. -/
def canonicalItems? : List Value → Option (List Value)
  | [] => some []
  | item :: rest =>
    match canonical? item, canonicalItems? rest with
    | some value, some values => some (value :: values)
    | _, _ => none

/-- The representatives of the values of entries. -/
def canonicalEntries? : List (String × Value) → Option (List (String × Value))
  | [] => some []
  | (key, value) :: rest =>
    match canonical? value, canonicalEntries? rest with
    | some representative, some entries => some ((key, representative) :: entries)
    | _, _ => none

end

/-- Whether two values mean the same. -/
def alike (a b : Value) : Bool :=
  match a.canonical?, b.canonical? with
  | some x, some y => decide (x = y)
  | _, _ => false

end Value

end Reshape
