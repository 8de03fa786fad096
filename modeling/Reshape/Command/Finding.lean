import Reshape.Command.Failure
import Reshape.Json.Reader
import Reshape.Plan.OfText
import Reshape.Plan.Run

/-!
Checking a phrase text.

* `Finding`: what a check finds.
* `Finding.ofCheck`: makes a plan of a phrase text and, unless only the text is to be checked, runs
  it on a document.
-/

namespace Reshape

/-- What a check finds. -/
inductive Finding where
  /-- The phrase text has a plan. It has not been run. -/
  | syntaxValid
  /-- The output of the plan. -/
  | output (document : Json)

/-- Checks a phrase text and, unless only the text is to be checked, runs its plan on the document
that the input spells. A rejected phrase text is reported before anything that is wrong with the
input. -/
def Finding.ofCheck (phrases : String) (input : Option String) (syntaxOnly : Bool) :
    Except Failure Finding :=
  match Plan.ofText phrases with
  | .error rejection => .error (.rejected rejection)
  | .ok plan =>
    if syntaxOnly then .ok .syntaxValid
    else
      match input with
      | none => .error .noInput
      | some text =>
        match Json.read? text with
        | none => .error .json
        | some document => .ok (.output (plan.runJson document))

end Reshape
