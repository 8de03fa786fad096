import Reshape.Command.Failure
import Reshape.Plan.OfText
import Reshape.Program.Outline

/-!
What a phrase text is made of, for people to read.

* `tokenListing`: the tokens of a phrase text, one on a line.
* `treeListing`: the tree of a phrase text.
-/

namespace Reshape

/-- A token on a line: its place, to the right in four columns, and its text. -/
def Token.line (token : Token) : String :=
  let place := token.position.repr
  String.ofList (List.replicate (4 - place.length) ' ') ++ place ++ " " ++ token.kind.text ++ "\n"

/-- The tokens of a phrase text, one on a line. -/
def tokenListing (phrases : String) : Except Failure String :=
  match Token.ofText phrases with
  | .error rejection => .error (.rejected rejection)
  | .ok tokens => .ok (String.join (tokens.map Token.line))

/-- The tree of a phrase text. -/
def treeListing (phrases : String) : Except Failure String :=
  match Program.ofText phrases with
  | .error rejection => .error (.rejected rejection)
  | .ok program => .ok program.outline.text

end Reshape
