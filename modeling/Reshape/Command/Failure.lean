import Reshape.Rejection

/-!
Why a command fails.

* `Failure`: the causes.
* `Failure.message`: what is said about a failure.
* `Failure.cause?`: what is said about the cause behind it.
-/

namespace Reshape

/-- Why a command fails. -/
inductive Failure where
  /-- The phrase text is rejected. -/
  | rejected (rejection : Rejection)
  /-- The input is no document. -/
  | json
  /-- The input cannot be read. -/
  | io (reason : String)
  /-- There is no input. -/
  | noInput
deriving DecidableEq

namespace Failure

/-- What is said about a failure. What is wrong with an input that is no document is not told. -/
def message : Failure → String
  | .rejected rejection => "Compile error: " ++ rejection.message
  | .json => "Invalid JSON: "
  | .io reason => "IO error: " ++ reason
  | .noInput => "No input provided. Use --input or pipe JSON to stdin."

/-- What is said about the cause behind a failure, if there is one that can be told. -/
def cause? : Failure → Option String
  | .rejected rejection => some rejection.message
  | .json => none
  | .io reason => some reason
  | .noInput => none

end Failure

end Reshape
