import Reshape.Program.Basic
import Reshape.Token.Basic

/-!
Why a phrase text is rejected.

* `Fault`: what can be wrong with the segments of a phrase.
* `Rejection`: a character that belongs to no token, a token that cannot follow the ones before it,
  or a phrase whose segments are not arranged as its kind demands.
* `Rejection.message` and `Rejection.position`: what is said about it, and where it is.
-/

namespace Reshape

/-- What can be wrong with the segments of a phrase. -/
inductive Fault where
  /-- There are none. -/
  | noSegments
  /-- A path ends with something else than the input or a property. -/
  | pathEnd
  /-- A value phrase ends with something else than a constant. -/
  | valueEnd
  /-- A map begins with something else than the map operator. -/
  | mapStart
  /-- Something else than a name stands in front. -/
  | leadStep
  /-- Something else than a name or a property follows the map operator. -/
  | mapStep
deriving DecidableEq

/-- What a fault is called in messages. -/
def Fault.text : Fault → String
  | .noSegments => "phrase has no segments"
  | .pathEnd => "path must end with `$` or `#name`"
  | .valueEnd => "value phrase must end with `key:value`"
  | .mapStart => "map phrase must start with `$>`"
  | .leadStep => "only path segments may lead a phrase"
  | .mapStep => "only path steps and `#name` may follow `$>`"

/-- Why a phrase text is rejected. -/
inductive Rejection where
  /-- A character that begins no token and is no blank. -/
  | invalidCharacter (character : Char) (position : Nat)
  /-- A token that cannot follow the ones before it. -/
  | unexpectedToken (token : Token)
  /-- A phrase whose segments are not arranged as its kind demands. -/
  | malformedPhrase (kind : Phrase.Kind) (position : Nat) (fault : Fault)
deriving DecidableEq

namespace Rejection

/-- What is said about a rejection. -/
def message : Rejection → String
  | .invalidCharacter character position =>
    "Invalid character '" ++ character.toString ++ "' at position " ++ position.repr
  | .unexpectedToken token =>
    "Unexpected token `" ++ token.kind.text ++ "` at position " ++ token.position.repr
  | .malformedPhrase kind position fault =>
    "Malformed " ++ kind.text ++ " at position " ++ position.repr ++ ": " ++ fault.text

/-- The place that a rejection points at, in characters from the start of the text. -/
def position : Rejection → Nat
  | .invalidCharacter _ position => position
  | .unexpectedToken token => token.position
  | .malformedPhrase _ position _ => position

end Rejection

end Reshape
