import Reshape.Value.Equality

/-!
Plans: what is to be computed from an input.

* `Group`: a property of an element and the path that it is put under.
* `Selection`: what one phrase takes from the input, before its path is put around it.
* `Part`: a selection under a path.
* `Plan`: how the parts of a program are put together.
-/

namespace Reshape

/-- A property that is put under a path. -/
structure Group where
  /-- The path, outermost key first. -/
  path : List String
  /-- The property. -/
  property : String
deriving DecidableEq

/-- What is taken from an input. -/
inductive Selection where
  /-- The input itself. -/
  | input
  /-- A property of the input. -/
  | property (name : String)
  /-- A value that does not depend on the input. -/
  | constant (value : Value)
  /-- One property of all items, in one array without repetitions. -/
  | gather (name : String)
  /-- An object for every item. -/
  | records (groups : List Group)
deriving DecidableEq

/-- A selection under a path. -/
structure Part where
  /-- The path, outermost key first. -/
  path : List String
  /-- What stands at its end. -/
  selection : Selection
deriving DecidableEq

/-- How parts are put together. -/
inductive Plan where
  /-- Nothing: the empty object. -/
  | empty
  /-- One part as it is. -/
  | single (part : Part)
  /-- An object for every item. -/
  | columns (groups : List Group)
  /-- Parts laid over each other. -/
  | merge (parts : List Part)
deriving DecidableEq

/-- What the way of putting parts together is called. -/
def Plan.text : Plan → String
  | .empty => "empty"
  | .single _ => "single"
  | .columns _ => "columns"
  | .merge _ => "merge"

end Reshape
