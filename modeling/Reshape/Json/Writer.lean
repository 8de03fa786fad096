import Reshape.Json.Numeral
import Reshape.Json.Quoted
import Reshape.Value.Entries

/-!
Writing documents.

* `compact`: the text of a document without blanks.
* `pretty`: the text of a document over indented lines.
* `compactItems_eq_map`, `prettyEntries_eq_map` and others: items and entries are written one by
  one.

Both texts list the entries of an object in the order of their keys.
-/

namespace Reshape.Json

/-- The text of a truth value. -/
def booleanText : Bool → String
  | true => "true"
  | false => "false"

/-- The texts of entries, made of their keys and the texts of their values, in the order of the
keys. -/
def entryTexts (separator : String) (entries : List (String × String)) : List String :=
  (Entries.sort entries).map fun (key, value) => quote key ++ separator ++ value

mutual

/-- The text of a document without blanks. -/
def compact : Json → String
  | .null => "null"
  | .boolean value => booleanText value
  | .number value => value.text
  | .string text => quote text
  | .array items => "[" ++ ",".intercalate (compactItems items) ++ "]"
  | .object entries =>
    "\x7b" ++ ",".intercalate (entryTexts ":" (compactEntries entries)) ++ "\x7d"

/-- The texts of documents in order. -/
def compactItems : List Json → List String
  | [] => []
  | item :: rest => compact item :: compactItems rest

/-- The texts of documents under keys. -/
def compactEntries : List (String × Json) → List (String × String)
  | [] => []
  | (key, value) :: rest => (key, compact value) :: compactEntries rest

end

/-- Parts between brackets, each on a line of its own. No parts need no lines. -/
def block (opening closing indent : String) (parts : List String) : String :=
  match parts with
  | [] => opening ++ closing
  | parts =>
    let newLine := "\n" ++ indent
    opening ++ newLine ++ "  " ++ ("," ++ newLine ++ "  ").intercalate parts ++ newLine ++ closing

mutual

/-- The text of a document over lines, of which all but the first begin with `indent`. Each level is
indented by two more blanks. -/
def prettyAt (indent : String) : Json → String
  | .null => "null"
  | .boolean value => booleanText value
  | .number value => value.text
  | .string text => quote text
  | .array items => block "[" "]" indent (prettyItems (indent ++ "  ") items)
  | .object entries =>
    block "\x7b" "\x7d" indent (entryTexts ": " (prettyEntries (indent ++ "  ") entries))

/-- The texts of documents in order. -/
def prettyItems (indent : String) : List Json → List String
  | [] => []
  | item :: rest => prettyAt indent item :: prettyItems indent rest

/-- The texts of documents under keys. -/
def prettyEntries (indent : String) : List (String × Json) → List (String × String)
  | [] => []
  | (key, value) :: rest => (key, prettyAt indent value) :: prettyEntries indent rest

end

/-- The text of a document over lines. -/
def pretty : Json → String :=
  prettyAt ""

/-! ### Items and entries -/

/-- The texts of documents in order, one by one. -/
theorem compactItems_eq_map (items : List Json) : compactItems items = items.map compact := by
  induction items with
  | nil => rfl
  | cons item rest ih => rw [compactItems, ih, List.map_cons]

/-- The texts of documents under keys, one by one. -/
theorem compactEntries_eq_map (entries : List (String × Json)) :
    compactEntries entries = entries.map fun entry => (entry.1, entry.2.compact) := by
  induction entries with
  | nil => rfl
  | cons entry rest ih => rw [compactEntries, ih, List.map_cons]

/-- The texts of documents in order over lines, one by one. -/
theorem prettyItems_eq_map (indent : String) (items : List Json) :
    prettyItems indent items = items.map (prettyAt indent) := by
  induction items with
  | nil => rfl
  | cons item rest ih => rw [prettyItems, ih, List.map_cons]

/-- The texts of documents under keys over lines, one by one. -/
theorem prettyEntries_eq_map (indent : String) (entries : List (String × Json)) :
    prettyEntries indent entries = entries.map fun entry => (entry.1, entry.2.prettyAt indent) := by
  induction entries with
  | nil => rfl
  | cons entry rest ih => rw [prettyEntries, ih, List.map_cons]

end Reshape.Json
