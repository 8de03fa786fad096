import Reshape.Plan.Basic
import Reshape.Rejection

/-!
The plan of a program.

* `mapGroups`: the groups of the steps of a map.
* `Phrase.part`: the part that a phrase contributes.
* `Plan.ofProgram`: the plan of a program. Several maps without names in front of them make one
  object for every item together; other phrases are laid over each other.
-/

namespace Reshape

/-- The value of a constant. -/
def Constant.toValue : Constant → Value
  | .number value => .number value
  | .word text => .string text

/-- The names in front of a phrase of the given kind. -/
def leadNames (kind : Phrase.Kind) : List Segment → Except Rejection (List String)
  | [] => .ok []
  | segment :: rest =>
    match segment.form with
    | .name text => (text :: ·) <$> leadNames kind rest
    | _ => .error (.malformedPhrase kind segment.position .leadStep)

/-- The key of a property in a map that has no name in front of it. -/
def implicitKey : String :=
  "id"

/-- The groups of steps, when the names in `path` are already read: every property closes a group.
Names that no property closes make no group. -/
def groupsFrom (path : List String) : List Segment → Except Rejection (List Group)
  | [] => .ok []
  | segment :: rest =>
    match segment.form with
    | .name text => groupsFrom (path ++ [text]) rest
    | .property name =>
      let keys := if path.isEmpty then [implicitKey] else path
      (⟨keys, name⟩ :: ·) <$> groupsFrom [] rest
    | _ => .error (.malformedPhrase .map segment.position .mapStep)

/-- The groups of a map, whose first segment is the map operator. -/
def mapGroups : List Segment → Except Rejection (List Group)
  | [] => .error (.malformedPhrase .map 0 .noSegments)
  | first :: steps =>
    match first.form with
    | .each => groupsFrom [] steps
    | _ => .error (.malformedPhrase .map first.position .mapStart)

/-- What a map selects: a map of a property alone gathers it. -/
def mapSelection (segments : List Segment) (groups : List Group) : Selection :=
  match segments with
  | [_, ⟨.property name, _⟩] => .gather name
  | _ => .records groups

/-- The part of a path. -/
def pathPart (segments : List Segment) : Except Rejection Part :=
  match segments.getLast? with
  | none => .error (.malformedPhrase .path 0 .noSegments)
  | some last =>
    match last.form with
    | .input => (⟨·, .input⟩) <$> leadNames .path segments.dropLast
    | .property name => (⟨·, .property name⟩) <$> leadNames .path segments.dropLast
    | _ => .error (.malformedPhrase .path last.position .pathEnd)

/-- The part of a constant. Its key is the last one of the path. -/
def valuePart (segments : List Segment) : Except Rejection Part :=
  match segments.getLast? with
  | none => .error (.malformedPhrase .value 0 .noSegments)
  | some last =>
    match last.form with
    | .constant key value =>
      (fun names => ⟨names ++ [key], .constant value.toValue⟩) <$>
        leadNames .value segments.dropLast
    | _ => .error (.malformedPhrase .value last.position .valueEnd)

/-- The part of a map. -/
def mapPart (lead segments : List Segment) : Except Rejection Part := do
  let names ← leadNames .map lead
  let groups ← mapGroups segments
  return ⟨names, mapSelection segments groups⟩

/-- The part that a phrase contributes. -/
def Phrase.part : Phrase → Except Rejection Part
  | .path segments => pathPart segments
  | .value segments => valuePart segments
  | .map lead segments => mapPart lead segments

/-- The segments of a map that stands for columns: one without names in front of it. -/
def Phrase.columns? : Phrase → Option (List Segment)
  | .map [] segments => some segments
  | _ => none

/-- The plan of a program. -/
def Plan.ofProgram (program : Program) : Except Rejection Plan :=
  match program.phrases with
  | [] => .ok .empty
  | [phrase] => .single <$> phrase.part
  | phrases =>
    match phrases.mapM Phrase.columns? with
    | some maps => (fun groups => .columns groups.flatten) <$> maps.mapM mapGroups
    | none => .merge <$> phrases.mapM Phrase.part

end Reshape
