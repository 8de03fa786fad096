import Reshape.Json.Numeral
import Reshape.Json.Quoted
import Reshape.Value.Entries

/-!
Reading documents.

Documents are read strictly: no comments, no commas at the end, no leading zeros, and no characters
after the document but blanks.

* `entry`: reads an entry of an object.
* `document`: reads a document that is nested no deeper than a given bound.
* `read?`: the document of a text.
-/

namespace Reshape.Json

/-- A key, a colon and what the reader reads. -/
def entry {α : Type} (reader : Reader α) : Reader (String × α) := fun input =>
  match quoted input with
  | none => none
  | some key =>
    match h : skipBlanks key.rest with
    | ':' :: rest =>
      (afterBlanks reader rest).map fun r =>
        (r.map (key.value, ·)).widen
          (Nat.le_of_lt (Nat.lt_trans (length_lt_of_skipBlanks_eq_cons h) key.shorter))
    | _ => none

/-- The entries of an object. The last one of several for a key counts. -/
def collect {α : Type} (entries : List (String × α)) : List (String × α) :=
  entries.foldl (fun found entry => Entries.put entry.1 entry.2 found) []

/-- A document that is neither an array nor an object. -/
def scalar (input : List Char) : Option (Read Json input) :=
  match input with
  | 'n' :: 'u' :: 'l' :: 'l' :: rest =>
    some ((((Read.one 'l' .null rest).behind 'l').behind 'u').behind 'n')
  | 't' :: 'r' :: 'u' :: 'e' :: rest =>
    some ((((Read.one 'e' (.boolean true) rest).behind 'u').behind 'r').behind 't')
  | 'f' :: 'a' :: 'l' :: 's' :: 'e' :: rest =>
    some (((((Read.one 'e' (.boolean false) rest).behind 's').behind 'l').behind 'a').behind 'f')
  | '"' :: rest => (quoted ('"' :: rest)).map (·.map .string)
  | input => (numeral input).map (·.map .number)

/-- A document with at most `depth` arrays and objects around each other. -/
def document (depth : Nat) (input : List Char) : Option (Read Json input) :=
  match depth, input with
  | depth + 1, '[' :: rest =>
    (closedItems (document depth) ']' rest).map fun r => (r.map .array).behind '['
  | depth + 1, '\x7b' :: rest =>
    (closedItems (entry (document depth)) '\x7d' rest).map fun r =>
      (r.map fun entries => .object (collect entries)).behind '\x7b'
  | _, input => scalar input

/-- The number of arrays and objects that may be around each other. -/
def maxDepth : Nat :=
  127

/-- The document of a text. -/
def read? (text : String) : Option Json :=
  match afterBlanks (document maxDepth) text.toList with
  | some r => if (skipBlanks r.rest).isEmpty then some r.value else none
  | none => none

end Reshape.Json
