import Reshape.Number.Rounding
import Reshape.Value.Basic

/-!
JSON documents.

A document has one kind of number where values have two, so numbers are told apart on the way in
and joined on the way out.

* `Json.Number`: what a document can hold as a number: an integer that fits 64 bits, with or without
  a sign, or a finite double.
* `Json`: a document.
* `Json.toValue`: the value of a document.
* `Json.ofValue`: the document of a value; floats that are not finite become null.
* `toValues_eq_map`, `ofEntries_eq_map` and others: items and entries are converted one by one.
-/

namespace Reshape

/-- A number of a document. -/
inductive Json.Number where
  /-- An integer that fits 64 bits, signed or unsigned. -/
  | integer (value : Int) (least : -0x8000000000000000 ≤ value)
      (bound : value < 0x10000000000000000)
  /-- A finite double. -/
  | float (negative : Bool) (magnitude : Magnitude)
deriving DecidableEq

/-- A document. -/
inductive Json where
  /-- Null. -/
  | null
  /-- A truth value. -/
  | boolean (value : Bool)
  /-- A number. -/
  | number (value : Json.Number)
  /-- A text. -/
  | string (text : String)
  /-- Documents in order. -/
  | array (items : List Json)
  /-- Documents under keys. -/
  | object (entries : List (String × Json))

namespace Json

/-- The value of a number: an integer if it fits 64 bits with a sign, else the nearest float. -/
def Number.toNumber : Json.Number → Reshape.Number
  | .integer value _ _ =>
    if value < 0x8000000000000000 then .integer (Int64.ofInt value) else .float (.ofInt value)
  | .float negative magnitude => .float (.finite negative magnitude)

/-- The number of a document that stands for an integer. -/
def Number.ofInt64 (value : Int64) : Json.Number :=
  .integer value.toInt (Int64.le_toInt value) (Int.lt_trans (Int64.toInt_lt value) (by decide))

/-- The document of a number, null if it is not finite. -/
def ofNumber : Reshape.Number → Json
  | .integer value => .number (.ofInt64 value)
  | .float (.finite negative magnitude) => .number (.float negative magnitude)
  | .float _ => .null

mutual

/-- The value of a document. -/
def toValue : Json → Value
  | .null => .null
  | .boolean value => .boolean value
  | .number value => .number value.toNumber
  | .string text => .string text
  | .array items => .array (toValues items)
  | .object entries => .object (toEntries entries)

/-- The values of documents in order. -/
def toValues : List Json → List Value
  | [] => []
  | item :: rest => toValue item :: toValues rest

/-- The values of documents under keys. -/
def toEntries : List (String × Json) → List (String × Value)
  | [] => []
  | (key, value) :: rest => (key, toValue value) :: toEntries rest

end

mutual

/-- The document of a value. -/
def ofValue : Value → Json
  | .null => .null
  | .boolean value => .boolean value
  | .number value => ofNumber value
  | .string text => .string text
  | .array items => .array (ofValues items)
  | .object entries => .object (ofEntries entries)

/-- The documents of values in order. -/
def ofValues : List Value → List Json
  | [] => []
  | item :: rest => ofValue item :: ofValues rest

/-- The documents of values under keys. -/
def ofEntries : List (String × Value) → List (String × Json)
  | [] => []
  | (key, value) :: rest => (key, ofValue value) :: ofEntries rest

end

/-! ### Items and entries -/

/-- The values of documents in order, one by one. -/
theorem toValues_eq_map (items : List Json) : toValues items = items.map toValue := by
  induction items with
  | nil => rfl
  | cons item rest ih => rw [toValues, ih, List.map_cons]

/-- The values of documents under keys, one by one. -/
theorem toEntries_eq_map (entries : List (String × Json)) :
    toEntries entries = entries.map fun entry => (entry.1, entry.2.toValue) := by
  induction entries with
  | nil => rfl
  | cons entry rest ih => rw [toEntries, ih, List.map_cons]

/-- The documents of values in order, one by one. -/
theorem ofValues_eq_map (items : List Value) : ofValues items = items.map ofValue := by
  induction items with
  | nil => rfl
  | cons item rest ih => rw [ofValues, ih, List.map_cons]

/-- The documents of values under keys, one by one. -/
theorem ofEntries_eq_map (entries : List (String × Value)) :
    ofEntries entries = entries.map fun entry => (entry.1, ofValue entry.2) := by
  induction entries with
  | nil => rfl
  | cons entry rest ih => rw [ofEntries, ih, List.map_cons]

end Json

end Reshape
