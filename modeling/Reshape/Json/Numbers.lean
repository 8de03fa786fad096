import Reshape.Json.Basic
import Reshape.Value.Place

/-!
The numbers in values and documents, and where they stand.

* `Value.mapNumbers` and `Json.mapNumbers`: all numbers replaced, at whatever depth.
* `Number.orNull`: a number, or null for a float that is not finite.
* `Json.HasNumber`: a number occurs in a document.
* `Json.at?`: the document at a place.
-/

namespace Reshape

/-- The number as a value, null for a float that is not finite. -/
def Number.orNull : Number → Value
  | .integer value => .number (.integer value)
  | .float x => if x.isFinite then .number (.float x) else .null

namespace Value

mutual

/-- The value with other values in place of its numbers. -/
def mapNumbers (f : Number → Value) : Value → Value
  | .null => .null
  | .boolean value => .boolean value
  | .number value => f value
  | .string text => .string text
  | .array items => .array (mapItemNumbers f items)
  | .object entries => .object (mapEntryNumbers f entries)

/-- The items with other values in place of their numbers. -/
def mapItemNumbers (f : Number → Value) : List Value → List Value
  | [] => []
  | item :: rest => mapNumbers f item :: mapItemNumbers f rest

/-- The entries with other values in place of the numbers in theirs. -/
def mapEntryNumbers (f : Number → Value) : List (String × Value) → List (String × Value)
  | [] => []
  | (key, value) :: rest => (key, mapNumbers f value) :: mapEntryNumbers f rest

end

/-- In an array, item by item. -/
theorem mapNumbers_array (f : Number → Value) (items : List Value) :
    mapNumbers f (.array items) = .array (items.map (mapNumbers f)) := by
  rw [mapNumbers]
  refine congrArg Value.array ?_
  induction items with
  | nil => rfl
  | cons item rest ih => rw [mapItemNumbers, ih, List.map_cons]

/-- In an object, entry by entry. -/
theorem mapNumbers_object (f : Number → Value) (entries : List (String × Value)) :
    mapNumbers f (.object entries) =
      .object (entries.map fun entry => (entry.1, mapNumbers f entry.2)) := by
  rw [mapNumbers]
  refine congrArg Value.object ?_
  induction entries with
  | nil => rfl
  | cons entry rest ih => rw [mapEntryNumbers, ih, List.map_cons]

end Value

namespace Json

mutual

/-- The document with other numbers in place of its own. -/
def mapNumbers (f : Number → Number) : Json → Json
  | .null => .null
  | .boolean value => .boolean value
  | .number value => .number (f value)
  | .string text => .string text
  | .array items => .array (mapItemNumbers f items)
  | .object entries => .object (mapEntryNumbers f entries)

/-- The items with other numbers in place of their own. -/
def mapItemNumbers (f : Number → Number) : List Json → List Json
  | [] => []
  | item :: rest => mapNumbers f item :: mapItemNumbers f rest

/-- The entries with other numbers in place of those in theirs. -/
def mapEntryNumbers (f : Number → Number) : List (String × Json) → List (String × Json)
  | [] => []
  | (key, value) :: rest => (key, mapNumbers f value) :: mapEntryNumbers f rest

end

/-- In an array, item by item. -/
theorem mapNumbers_array (f : Number → Number) (items : List Json) :
    mapNumbers f (.array items) = .array (items.map (mapNumbers f)) := by
  rw [mapNumbers]
  refine congrArg Json.array ?_
  induction items with
  | nil => rfl
  | cons item rest ih => rw [mapItemNumbers, ih, List.map_cons]

/-- In an object, entry by entry. -/
theorem mapNumbers_object (f : Number → Number) (entries : List (String × Json)) :
    mapNumbers f (.object entries) =
      .object (entries.map fun entry => (entry.1, mapNumbers f entry.2)) := by
  rw [mapNumbers]
  refine congrArg Json.object ?_
  induction entries with
  | nil => rfl
  | cons entry rest ih => rw [mapEntryNumbers, ih, List.map_cons]

/-- A number occurs in a document: it is the document, or occurs in an item or under a key. -/
inductive HasNumber (n : Number) : Json → Prop where
  | number : HasNumber n (.number n)
  | item {items : List Json} {item : Json} :
      item ∈ items → HasNumber n item → HasNumber n (.array items)
  | entry {entries : List (String × Json)} {entry : String × Json} :
      entry ∈ entries → HasNumber n entry.2 → HasNumber n (.object entries)

/-- The document one step further in. -/
def child? : Json → Place.Step → Option Json
  | .object entries, .key name => entries.lookup name
  | .array items, .index i => items[i]?
  | _, _ => none

/-- The document at a place. -/
def at? (json : Json) : Place → Option Json
  | [] => some json
  | step :: rest => (json.child? step).bind (·.at? rest)

end Json

end Reshape
