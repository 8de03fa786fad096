import Reshape.Plan.OfProgram
import Reshape.Program.Stage
import Reshape.Token.Cursor

/-!
The program and the plan of a phrase text.

* `Program.ofText`: from text over tokens to a program.
* `Plan.ofText`: from there to a plan.
-/

namespace Reshape

/-- The program of a phrase text. -/
def Program.ofText (text : String) : Except Rejection Program := do
  Program.ofTokens (← Token.ofText text)

/-- The plan of a phrase text. -/
def Plan.ofText (text : String) : Except Rejection Plan := do
  Plan.ofProgram (← Program.ofText text)

end Reshape
