import Reshape.Program.Basic

/-!
Outlines of programs: the tree written out, every field and every item on a line of its own.

* `Outline`: what can be outlined: atoms, records with named fields, calls and lists.
* `Outline.lines`: the lines of an outline; each level is indented by four more spaces and every
  part ends with a comma.
* `Program.outline`: the outline of a program.
-/

namespace Reshape

/-- A tree that can be written out over lines. -/
inductive Outline where
  /-- A word. -/
  | atom (text : String)
  /-- A name with fields in braces. -/
  | record (name : String) (fields : List (String × Outline))
  /-- A name with one argument in parentheses. -/
  | call (name : String) (argument : Outline)
  /-- Items in brackets. -/
  | list (items : List Outline)

namespace Outline

/-- A text in quotation marks. Names in programs are letters and digits, which stand for
themselves. -/
def quoted (text : String) : Outline :=
  .atom ("\"" ++ text ++ "\"")

/-- The lines of a part: a label before the first one, a comma after the last one, and all of them
one level in. -/
def part (label : String) (lines : List String) : List String :=
  let labelled := match lines with
    | [] => []
    | first :: rest => (label ++ first) :: rest
  labelled.mapIdx fun i line =>
    "    " ++ line ++ if i + 1 = labelled.length then "," else ""

mutual

/-- The lines of an outline. -/
def lines : Outline → List String
  | .atom text => [text]
  | .record name fields => (name ++ " \x7b") :: (fieldLines fields ++ ["\x7d"])
  | .call name argument => (name ++ "(") :: (part "" (lines argument) ++ [")"])
  | .list [] => ["[]"]
  | .list (item :: items) => "[" :: (itemLines (item :: items) ++ ["]"])

/-- The lines of the fields of a record. -/
def fieldLines : List (String × Outline) → List String
  | [] => []
  | (name, value) :: rest => part (name ++ ": ") (lines value) ++ fieldLines rest

/-- The lines of the items of a list. -/
def itemLines : List Outline → List String
  | [] => []
  | item :: rest => part "" (lines item) ++ itemLines rest

end

/-- The text of an outline, each line ended by a line feed. -/
def text (o : Outline) : String :=
  String.join (o.lines.map (· ++ "\n"))

end Outline

/-- The outline of a number; a float shows that it is one. -/
def Number.outline : Number → Outline
  | .integer value => .call "Integer" (.atom ((Number.integer value).textWith .dump))
  | .float value => .call "Float" (.atom ((Number.float value).textWith .dump))

/-- The outline of a constant. -/
def Constant.outline : Constant → Outline
  | .number value => .call "Number" value.outline
  | .word text => .call "String" (.quoted text)

/-- The outline of a step. -/
def Segment.outline (s : Segment) : Outline :=
  let position := ("position", Outline.atom s.position.repr)
  match s.form with
  | .name text => .record "PathSegment" [("name", .quoted text), position]
  | .property text => .record "PropertyAccess" [("name", .quoted text), position]
  | .input => .record "InputReference" [position]
  | .each => .record "MapOperator" [position]
  | .constant key value =>
    .record "ValueAssignment" [("key", .quoted key), ("literal", value.outline), position]

/-- The outline of steps in a row. -/
def Segment.outlines (segments : List Segment) : Outline :=
  .list (segments.map Segment.outline)

/-- The outline of a phrase. -/
def Phrase.outline : Phrase → Outline
  | .path segments => .record "Path" [("segments", Segment.outlines segments)]
  | .value segments => .record "Value" [("segments", Segment.outlines segments)]
  | .map lead segments =>
    .record "Map" [("prefix", Segment.outlines lead), ("segments", Segment.outlines segments)]

/-- The outline of a program. -/
def Program.outline (program : Program) : Outline :=
  .record "Program" [("phrases", .list (program.phrases.map Phrase.outline))]

end Reshape
