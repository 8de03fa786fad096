import Reshape.Command.Run

/-!
The command line.

* `readStandardInput`: the standard input as a text, or the reason why it is none.
* `main`: runs the command that the arguments name.
-/

namespace Reshape

/-- The standard input as a text, or the reason why it is none. -/
def readStandardInput : IO (Except String String) := do
  try
    let bytes ← (← IO.getStdin).readBinToEnd
    match String.fromUTF8? bytes with
    | some text => return .ok text
    | none => return .error "stream did not contain valid UTF-8"
  catch error => return .error error.toString

end Reshape

/-- Runs the command that the arguments name, prints what it leaves behind and ends with its exit
code. -/
def main (arguments : List String) : IO UInt32 := do
  let wanted := match Reshape.Command.ofArguments? arguments with
    | some command => command.readsInput
    | none => false
  let input ← if wanted then Reshape.readStandardInput else pure (.ok "")
  let outcome := Reshape.Outcome.ofArguments arguments input
  IO.print outcome.stdout
  IO.eprint outcome.stderr
  return outcome.exit.toUInt32
