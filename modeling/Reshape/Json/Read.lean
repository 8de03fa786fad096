/-!
Reading from the front of a list of characters.

* `Read`: what is read from an input, and the rest of the input, which is shorter.
* `Reader`: what reads, or refuses to.
* `skipBlanks`: the input without the blanks at its front.
* `items` and `closedItems`: items with commas between them.
-/

namespace Reshape.Json

/-- What is read from the front of an input, and what is left. -/
structure Read (α : Type) (input : List Char) where
  /-- What is read. -/
  value : α
  /-- The characters after it. -/
  rest : List Char
  /-- Reading takes characters away. -/
  shorter : rest.length < input.length

/-- What reads from the front of an input, or refuses to. -/
abbrev Reader (α : Type) : Type :=
  (input : List Char) → Option (Read α input)

namespace Read

variable {α β : Type} {input : List Char}

/-- What is read by taking one character. -/
def one (c : Char) (value : α) (rest : List Char) : Read α (c :: rest) :=
  ⟨value, rest, Nat.lt_succ_self _⟩

/-- Changes what is read. -/
def map (f : α → β) (r : Read α input) : Read β input :=
  ⟨f r.value, r.rest, r.shorter⟩

/-- The same reading in a longer input. -/
def widen {longer : List Char} (r : Read α input) (h : input.length ≤ longer.length) :
    Read α longer :=
  ⟨r.value, r.rest, Nat.lt_of_lt_of_le r.shorter h⟩

/-- The same reading behind one more character. -/
def behind (c : Char) (r : Read α input) : Read α (c :: input) :=
  r.widen (Nat.le_succ _)

end Read

/-- The blanks of documents: space, tab, line feed and carriage return. -/
def isBlank (c : Char) : Bool :=
  c = ' ' || c = '\t' || c = '\n' || c = '\r'

/-- The input without the blanks at its front. -/
def skipBlanks (input : List Char) : List Char :=
  input.dropWhile isBlank

/-- Skipping blanks adds nothing. -/
theorem length_skipBlanks_le (input : List Char) : (skipBlanks input).length ≤ input.length :=
  (List.dropWhile_sublist _).length_le

/-- What is left after a character behind blanks is shorter. -/
theorem length_lt_of_skipBlanks_eq_cons {input rest : List Char} {c : Char}
    (h : skipBlanks input = c :: rest) : rest.length < input.length := by
  have hle := length_skipBlanks_le input
  rw [h, List.length_cons] at hle
  exact hle

variable {α : Type}

/-- What is read after the blanks. -/
def afterBlanks (reader : Reader α) : Reader α := fun input =>
  (reader (skipBlanks input)).map (·.widen (length_skipBlanks_le input))

/-- One or more items with commas between them, and then a closing mark. -/
def items (item : Reader α) (closing : Char) (input : List Char) :
    Option (Read (List α) input) :=
  match afterBlanks item input with
  | none => none
  | some first =>
    have := first.shorter
    match h : skipBlanks first.rest with
    | [] => none
    | c :: rest =>
      have := length_lt_of_skipBlanks_eq_cons h
      if c = closing then some ⟨[first.value], rest, by omega⟩
      else if c = ',' then
        (items item closing rest).map fun more =>
          ⟨first.value :: more.value, more.rest, by have := more.shorter; omega⟩
      else none
termination_by input.length

/-- Items with commas between them, perhaps none, and then a closing mark. -/
def closedItems (item : Reader α) (closing : Char) : Reader (List α) := fun input =>
  match h : skipBlanks input with
  | [] => none
  | c :: rest =>
    if c = closing then some ⟨[], rest, length_lt_of_skipBlanks_eq_cons h⟩
    else items item closing input

end Reshape.Json
