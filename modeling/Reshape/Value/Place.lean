import Reshape.Value.Basic

/-!
Places in values.

* `Place`: a list of keys and indices.
* `Value.at?`: the value at a place, none if the value has no such place.
* `Value.IsLeaf`: the value has nothing inside.
* `Value.follow`: the value that is reached by reading one property after the other.
* `Incomparable`: two paths of keys, neither of which leads through the end of the other.
-/

namespace Reshape

/-- One step into a value. -/
inductive Place.Step where
  /-- To the value under a key. -/
  | key (name : String)
  /-- To the item at an index. -/
  | index (i : Nat)
deriving DecidableEq

/-- A way into a value, outermost step first. -/
abbrev Place : Type :=
  List Place.Step

namespace Value

/-- The value one step further in. -/
def child? : Value → Place.Step → Option Value
  | .object entries, .key name => entries.lookup name
  | .array items, .index i => items[i]?
  | _, _ => none

/-- The value at a place. -/
def at? (value : Value) : Place → Option Value
  | [] => some value
  | step :: rest => (value.child? step).bind (·.at? rest)

/-- Nothing is inside the value: it is an empty array, an empty object, or neither of the two. -/
def IsLeaf : Value → Prop
  | .array items => items = []
  | .object entries => entries = []
  | _ => True

/-- The value that is reached by reading one property after the other, null where one is missing. -/
def follow (value : Value) (path : List String) : Value :=
  path.foldl (fun inner key => inner.property key) value

end Value

/-- Neither path begins with the other. -/
def Incomparable (p q : List String) : Prop :=
  ¬ p <+: q ∧ ¬ q <+: p

instance (p q : List String) : Decidable (Incomparable p q) :=
  inferInstanceAs (Decidable (_ ∧ _))

end Reshape
