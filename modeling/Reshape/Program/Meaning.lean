import Reshape.Plan.OfProgram
import Reshape.Plan.Run

/-!
The meaning of programs, read off the tree.

* `Phrase.outputPath`: where in the output a phrase puts what it contributes.
* `Segment.groups`: the groups of the steps of a map, which are cut behind every property.
* `Phrase.contribution`: what a phrase puts there.
* `Program.meaning`: the output of a program for an input.

A segment that is out of place means nothing: it adds no level, selects null and closes no group.
-/

namespace Reshape

/-- The level of nesting that a segment adds: a name, or the key of a constant. -/
def Segment.level? (segment : Segment) : Option String :=
  match segment.form with
  | .name text => some text
  | .constant key _ => some key
  | _ => none

/-- The path under which a phrase puts what it contributes. -/
def Phrase.outputPath : Phrase → List String
  | .path segments => segments.filterMap Segment.level?
  | .value segments => segments.filterMap Segment.level?
  | .map lead _ => lead.filterMap Segment.level?

/-- The steps of a map, cut behind every property: the names of each piece, and its property. What
is left behind the last property is no piece. -/
def Segment.pieces : List Segment → List (List String × String)
  | [] => []
  | segment :: rest =>
    match segment.form with
    | .property name => ([], name) :: pieces rest
    | .name text =>
      match pieces rest with
      | (names, name) :: more => (text :: names, name) :: more
      | [] => []
    | _ => pieces rest

/-- The groups of the steps of a map. A piece without names has the implicit key. -/
def Segment.groups (steps : List Segment) : List Group :=
  (pieces steps).map fun (names, name) => ⟨if names = [] then [implicitKey] else names, name⟩

/-- The object that groups make of an item: each property under its path, laid over the ones before
it. -/
def Group.object (groups : List Group) (item : Value) : Value :=
  groups.foldl (fun object group => object.overlay (group.read item)) .empty

/-- What the last step of a phrase selects from an input. -/
def Segment.selected (input : Value) (segment : Segment) : Value :=
  match segment.form with
  | .input => input
  | .property name => input.property name
  | .constant _ value => value.toValue
  | _ => .null

/-- What the steps of a map make of an input: a property alone is gathered, and else there is an
object for every item. -/
def Segment.mapped (input : Value) : List Segment → Value
  | [⟨.property name, _⟩] => input.gather name
  | steps => .array (input.items.map (Group.object (groups steps)))

/-- What a phrase contributes, before it is put under its path. -/
def Phrase.contribution (input : Value) : Phrase → Value
  | .path segments => (segments.getLast?.map (Segment.selected input)).getD .null
  | .value segments => (segments.getLast?.map (Segment.selected input)).getD .null
  | .map _ segments => Segment.mapped input segments.tail

/-- The steps of a map that has no names in front of it. -/
def Phrase.bareSteps? : Phrase → Option (List Segment)
  | .map [] segments => some segments.tail
  | _ => none

/-- The output of a program for an input. A phrase alone gives its contribution under its path.
Several maps without names in front of them make one object for every item. All other phrases are
laid over each other in order, from the empty object on. -/
def Program.meaning (program : Program) (input : Value) : Value :=
  let nested (phrase : Phrase) := (phrase.contribution input).nest phrase.outputPath
  match program.phrases with
  | [phrase] => nested phrase
  | phrases =>
    if phrases ≠ [] ∧ ∀ phrase ∈ phrases, phrase.bareSteps?.isSome then
      let groups := (phrases.filterMap Phrase.bareSteps?).flatMap Segment.groups
      .array (input.items.map (Group.object groups))
    else phrases.foldl (fun output phrase => output.overlay (nested phrase)) .empty

end Reshape
