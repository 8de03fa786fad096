import Reshape.Number.Basic

/-!
Tokens of phrase text.

* `Token.Kind`: punctuation, names, numbers and the end of the input.
* `Token`: a kind and the offset of the first character.
* `Token.Kind.text`: how a token is named in messages.
-/

namespace Reshape

namespace Token

/-- What a token is. -/
inductive Kind where
  /-- The separator of steps. -/
  | dot
  /-- The input, or the first half of the map operator. -/
  | dollar
  /-- The second half of the map operator. -/
  | arrow
  /-- The mark of a property. -/
  | hash
  /-- The separator of a key and its constant. -/
  | colon
  /-- The separator of phrases. -/
  | semicolon
  /-- A letter and the letters and digits that follow it. -/
  | identifier (name : String)
  /-- A numeral. -/
  | number (value : Number)
  /-- The end of the input. -/
  | endOfInput
deriving DecidableEq

/-- The text of a token: what was written, with numerals in their plain form. -/
def Kind.text : Kind → String
  | .dot => "."
  | .dollar => "$"
  | .arrow => ">"
  | .hash => "#"
  | .colon => ":"
  | .semicolon => ";"
  | .identifier name => name
  | .number value => value.text
  | .endOfInput => "EndOfInput"

end Token

/-- A token and the place where it starts, counted in characters. -/
structure Token where
  /-- What the token is. -/
  kind : Token.Kind
  /-- The offset of its first character. -/
  position : Nat
deriving DecidableEq

end Reshape
