import Reshape.Command.Finding
import Reshape.Command.Listing
import Reshape.Command.Options
import Reshape.Json.Writer

/-!
Running commands.

* `Outcome`: what a command leaves behind: an exit code and two texts.
* `Command.readsInput`: whether a command wants the standard input.
* `Command.run`: the outcome of a command. A failing command prints nothing to its output.
* `Outcome.ofArguments`: the outcome of a list of arguments.
-/

namespace Reshape

/-- What a command leaves behind. -/
structure Outcome where
  /-- The exit code. -/
  exit : Nat
  /-- What is printed. -/
  stdout : String
  /-- What is printed about failures. -/
  stderr : String
deriving DecidableEq

namespace Outcome

/-- A success with a text to print. -/
def success (text : String) : Outcome :=
  ⟨0, text, ""⟩

/-- A failure. The message about an input that is no document has an open end. -/
def failure : Failure → Outcome
  | .json => ⟨1, "", Failure.json.message⟩
  | failure => ⟨1, "", failure.message ++ "\n"⟩

/-- Arguments that are not well-formed. -/
def usage : Outcome :=
  ⟨2, "", ""⟩

end Outcome

/-- The text that a check prints. -/
def Finding.text (pretty : Bool) : Finding → String
  | .syntaxValid => "Syntax is valid\n"
  | .output document => (if pretty then document.pretty else document.compact) ++ "\n"

namespace Command

/-- Whether a command wants the standard input: a check that has no input of its own and is not
about the phrase text alone. -/
def readsInput : Command → Bool
  | .check _ none _ syntaxOnly => !syntaxOnly
  | _ => false

/-- The input of a check: its own, or else the standard input, which is a text or the reason why it
cannot be read. -/
def checkInput (own : Option String) (syntaxOnly : Bool) (stdin : Except String String) :
    Except Failure (Option String) :=
  match own, syntaxOnly, stdin with
  | some text, _, _ => .ok (some text)
  | none, true, _ => .ok none
  | none, false, .ok text => .ok (some text)
  | none, false, .error reason => .error (.io reason)

/-- What a command prints, or why it fails. -/
def result (command : Command) (stdin : Except String String) : Except Failure String :=
  match command with
  | .check phrases own pretty syntaxOnly => do
    let input ← checkInput own syntaxOnly stdin
    let finding ← Finding.ofCheck phrases input syntaxOnly
    return finding.text pretty
  | .tokens phrases => tokenListing phrases
  | .ast phrases => treeListing phrases

/-- The outcome of a command. -/
def run (command : Command) (stdin : Except String String) : Outcome :=
  match command.result stdin with
  | .ok text => .success text
  | .error failure => .failure failure

end Command

/-- The outcome of a list of arguments. -/
def Outcome.ofArguments (arguments : List String) (stdin : Except String String) : Outcome :=
  match Command.ofArguments? arguments with
  | some command => command.run stdin
  | none => .usage

end Reshape
