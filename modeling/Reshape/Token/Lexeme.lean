import Reshape.Number.Numeral
import Reshape.Token.Basic

/-!
Lexemes: the texts of single tokens.

* `lexeme`: the lexeme at the front of an input, the longest one that fits.
* `lexemeKind?`: the kind of token that a lexeme is.
-/

namespace Reshape

/-- The longest numeral at the front of an input: digits, then at most one point and the digits
after it. -/
def numeralLexeme (input : List Char) : List Char :=
  let whole := input.takeWhile Char.isDigit
  match input.dropWhile Char.isDigit with
  | '.' :: rest => whole ++ '.' :: rest.takeWhile Char.isDigit
  | _ => whole

/-- The lexeme at the front of an input: of one character, unless it is a name or a numeral. -/
def lexeme : List Char → List Char
  | [] => []
  | c :: rest =>
    if c.isAlpha then c :: rest.takeWhile Char.isAlphanum
    else if c.isDigit then numeralLexeme (c :: rest)
    else [c]

/-- The token that a punctuation mark is. -/
def punctuation? : Char → Option Token.Kind
  | '.' => some .dot
  | '$' => some .dollar
  | '>' => some .arrow
  | '#' => some .hash
  | ':' => some .colon
  | ';' => some .semicolon
  | _ => none

/-- The kind of token that a lexeme is, settled by its first character. -/
def lexemeKind? (first : Char) (rest : List Char) : Option Token.Kind :=
  if first.isAlpha then some (.identifier (String.ofList (first :: rest)))
  else if first.isDigit then some (.number (.ofText (first :: rest)))
  else punctuation? first

end Reshape
