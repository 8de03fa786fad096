import Reshape.Text.Blank
import Reshape.Token.Lexeme

/-!
Which texts spell which tokens.

    name    := LETTER (LETTER | DIGIT)*
    numeral := DIGIT+ ('.' DIGIT*)?

* `IsLexeme`: a text is a lexeme of a kind of token.
* `IsLongest`: no longer piece of the input is a lexeme.
* `IsTextual`: the characters that a phrase text may hold.
* `Piece`: blanks and the lexeme behind them; `Piece.texts` and `Piece.tokens` are the text and the
  tokens of pieces in a row.
* `Piece.IsCut`: the pieces cut their text into lexemes, each the longest at its place.
-/

namespace Reshape

/-- The text is a lexeme of that kind. -/
inductive IsLexeme : List Char → Token.Kind → Prop where
  | punctuation {c : Char} {kind : Token.Kind} :
      punctuation? c = some kind → IsLexeme [c] kind
  | identifier {c : Char} {rest : List Char} :
      c.isAlpha → (∀ d ∈ rest, d.isAlphanum) →
      IsLexeme (c :: rest) (.identifier (String.ofList (c :: rest)))
  | whole {digits : List Char} :
      digits ≠ [] → (∀ d ∈ digits, d.isDigit) → IsLexeme digits (.number (.ofText digits))
  | decimal {digits fraction : List Char} :
      digits ≠ [] → (∀ d ∈ digits, d.isDigit) → (∀ d ∈ fraction, d.isDigit) →
      IsLexeme (digits ++ '.' :: fraction) (.number (.ofText (digits ++ '.' :: fraction)))

/-- No piece of the input that is longer than the text is a lexeme. -/
def IsLongest (text input : List Char) : Prop :=
  ∀ (more : List Char) (kind : Token.Kind), text.length < more.length → more.IsPrefix input →
    ¬ IsLexeme more kind

/-- A phrase text may hold the character: it is a blank, a letter, a digit or a punctuation mark. -/
def IsTextual (c : Char) : Prop :=
  isBlank c ∨ c.isAlphanum ∨ c ∈ ['.', '$', '>', '#', ':', ';']

/-- Blanks and the lexeme behind them. -/
structure Piece where
  /-- The blanks in front. -/
  blanks : List Char
  /-- The text of the token, empty at the end of the input. -/
  lexeme : List Char
  /-- The kind of the token. -/
  kind : Token.Kind
deriving DecidableEq

namespace Piece

/-- The text of pieces in a row. -/
def texts (pieces : List Piece) : List Char :=
  pieces.flatMap fun piece => piece.blanks ++ piece.lexeme

/-- The tokens of pieces in a row, each at the offset of its lexeme, when their text begins at
`offset`. -/
def tokens (offset : Nat) : List Piece → List Token
  | [] => []
  | piece :: rest =>
    ⟨piece.kind, offset + piece.blanks.length⟩ ::
      tokens (offset + piece.blanks.length + piece.lexeme.length) rest

/-- The pieces are lexemes with blanks in front, each the longest lexeme at its place, and behind
the last blanks stands the end of the input. -/
inductive IsCut : List Piece → Prop where
  | finish {blanks : List Char} :
      (∀ c ∈ blanks, isBlank c) → IsCut [⟨blanks, [], .endOfInput⟩]
  | cons {piece : Piece} {rest : List Piece} :
      (∀ c ∈ piece.blanks, isBlank c) → IsLexeme piece.lexeme piece.kind →
      IsLongest piece.lexeme (piece.lexeme ++ texts rest) → IsCut rest → IsCut (piece :: rest)

end Piece

end Reshape
