import Reshape.Json.Read

/-!
Texts in quotation marks.

* `escape`: how a character is written between quotation marks.
* `quote`: a text in quotation marks.
* `character`: reads a character between quotation marks, escaped or not.
* `quoted`: reads a text in quotation marks.

More than one spelling of a character can be read: any character may be escaped by the number of
its code units.
-/

namespace Reshape.Json

/-! ### Writing -/

/-- A character between quotation marks. Only quotation marks, backslashes and control characters
are escaped. -/
def escape (c : Char) : List Char :=
  match c with
  | '"' => ['\\', '"']
  | '\\' => ['\\', '\\']
  | '\x08' => ['\\', 'b']
  | '\x0c' => ['\\', 'f']
  | '\n' => ['\\', 'n']
  | '\r' => ['\\', 'r']
  | '\t' => ['\\', 't']
  | _ =>
    if c.toNat < 0x20 then
      ['\\', 'u', '0', '0', Nat.digitChar (c.toNat / 16), Nat.digitChar (c.toNat % 16)]
    else [c]

/-- A text in quotation marks. -/
def quote (text : String) : String :=
  String.ofList ('"' :: (text.toList.flatMap escape ++ ['"']))

/-! ### Reading -/

/-- The value of a hexadecimal digit. -/
def hexValue? (c : Char) : Option Nat :=
  if c.isDigit then some (c.toNat - '0'.toNat)
  else if 'a' ≤ c ∧ c ≤ 'f' then some (c.toNat - 'a'.toNat + 10)
  else if 'A' ≤ c ∧ c ≤ 'F' then some (c.toNat - 'A'.toNat + 10)
  else none

/-- The number of a code unit that four hexadecimal digits spell. -/
def codeUnit? (a b c d : Char) : Option Nat := do
  let a ← hexValue? a
  let b ← hexValue? b
  let c ← hexValue? c
  let d ← hexValue? d
  return ((a * 16 + b) * 16 + c) * 16 + d

/-- Whether a code unit is the first half of a surrogate pair. -/
def isHighSurrogate (unit : Nat) : Bool :=
  0xd800 ≤ unit && unit < 0xdc00

/-- Whether a code unit is the second half of a surrogate pair. -/
def isLowSurrogate (unit : Nat) : Bool :=
  0xdc00 ≤ unit && unit < 0xe000

/-- The character that a surrogate pair stands for. -/
def ofSurrogates (high low : Nat) : Char :=
  Char.ofNat (0x10000 + (high - 0xd800) * 0x400 + (low - 0xdc00))

/-- The character that a letter after a backslash stands for. -/
def escaped? : Char → Option Char
  | '"' => some '"'
  | '\\' => some '\\'
  | '/' => some '/'
  | 'b' => some '\x08'
  | 'f' => some '\x0c'
  | 'n' => some '\n'
  | 'r' => some '\r'
  | 't' => some '\t'
  | _ => none

/-- The second half of a surrogate pair, escaped by its number. -/
def lowSurrogate (input : List Char) : Option (Read Nat input) :=
  match input with
  | '\\' :: 'u' :: a :: b :: c :: d :: rest =>
    match codeUnit? a b c d with
    | some unit =>
      if isLowSurrogate unit then
        some ((((((Read.one d unit rest).behind c).behind b).behind a).behind 'u').behind '\\')
      else none
    | none => none
  | _ => none

/-- The character whose number follows, after a backslash and a `u`. The halves of a surrogate pair
have to stand together. -/
def codeUnits (input : List Char) : Option (Read Char input) :=
  match input with
  | a :: b :: c :: d :: rest =>
    match codeUnit? a b c d with
    | none => none
    | some unit =>
      if isLowSurrogate unit then none
      else if isHighSurrogate unit then
        (lowSurrogate rest).map fun low =>
          ((((low.map (ofSurrogates unit)).behind d).behind c).behind b).behind a
      else some ((((Read.one d (Char.ofNat unit) rest).behind c).behind b).behind a)
  | _ => none

/-- A character between quotation marks, escaped or not. Control characters have to be escaped. -/
def character (input : List Char) : Option (Read Char input) :=
  match input with
  | [] => none
  | '\\' :: 'u' :: rest => (codeUnits rest).map fun r => (r.behind 'u').behind '\\'
  | '\\' :: c :: rest => (escaped? c).map fun value => (Read.one c value rest).behind '\\'
  | c :: rest => if c = '\\' ∨ c.toNat < 0x20 then none else some (.one c c rest)

/-- The characters up to the closing quotation mark. -/
def characters (input : List Char) : Option (Read (List Char) input) :=
  match input with
  | '"' :: rest => some (.one '"' [] rest)
  | input =>
    match character input with
    | none => none
    | some first =>
      have := first.shorter
      (characters first.rest).map fun more =>
        ⟨first.value :: more.value, more.rest, Nat.lt_trans more.shorter first.shorter⟩
termination_by input.length

/-- A text in quotation marks. -/
def quoted (input : List Char) : Option (Read String input) :=
  match input with
  | '"' :: rest => (characters rest).map fun r => (r.map String.ofList).behind '"'
  | _ => none

end Reshape.Json
