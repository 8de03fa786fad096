import Std.Data.HashSet
import Reshape.Json.Basic
import Reshape.Plan.Basic
import Reshape.Value.Canonical
import Reshape.Value.Overlay

/-!
Running plans.

* `Value.distinct`: values without those that mean the same as an earlier one.
* `Value.gather`: one property of all items, in one array without repetitions.
* `Value.records`: an object for every item, made of groups.
* `Plan.run`: the output of a plan for an input.
-/

namespace Reshape

namespace Value

/-- The items of an array, and anything else as a single item. -/
def flat : Value → List Value
  | .array items => items
  | value => [value]

/-- The values that mean the same as no earlier one. The representatives of the earlier ones are
in `seen`; a value without a representative is never a repetition. -/
def distinctFrom (seen : Std.HashSet Value) : List Value → List Value
  | [] => []
  | value :: rest =>
    match value.canonical? with
    | none => value :: distinctFrom seen rest
    | some representative =>
      if seen.contains representative then distinctFrom seen rest
      else value :: distinctFrom (seen.insert representative) rest

/-- The values that mean the same as no earlier one, in order. -/
def distinct (values : List Value) : List Value :=
  distinctFrom ∅ values

/-- A property of all items of the input, in one array without repetitions. Where the property is
an array, its items count. -/
def gather (name : String) (input : Value) : Value :=
  .array (distinct (input.items.flatMap fun item => (item.property name).flat))

end Value

/-- The property of an item under the path of the group. -/
def Group.read (group : Group) (item : Value) : Value :=
  (item.property group.property).nest group.path

namespace Value

/-- The groups of one item, laid over each other. -/
def record (groups : List Group) (item : Value) : Value :=
  overlayAll (groups.map (·.read item))

/-- The groups of every item of the input. -/
def records (groups : List Group) (input : Value) : Value :=
  .array (input.items.map (record groups))

end Value

/-- What is taken from an input. -/
def Selection.run (selection : Selection) (input : Value) : Value :=
  match selection with
  | .input => input
  | .property name => input.property name
  | .constant value => value
  | .gather name => input.gather name
  | .records groups => input.records groups

/-- The output of a part. -/
def Part.run (part : Part) (input : Value) : Value :=
  (part.selection.run input).nest part.path

namespace Plan

/-- The output of a plan. -/
def run (plan : Plan) (input : Value) : Value :=
  match plan with
  | .empty => .empty
  | .single part => part.run input
  | .columns groups => input.records groups
  | .merge parts => Value.overlayAll (parts.map (·.run input))

/-- The output of a plan for a document, as a document. -/
def runJson (plan : Plan) (input : Json) : Json :=
  .ofValue (plan.run input.toValue)

end Plan

end Reshape
