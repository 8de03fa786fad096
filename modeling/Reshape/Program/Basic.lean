import Reshape.Number.Basic

/-!
Programs: what a phrase text says, as a tree.

* `Segment`: one step of a phrase and the place of the token that introduces it.
* `Phrase`: one clause of a program: the input or one of its properties under a path, a constant
  under a path, or something made of every element of an array.
* `Program`: phrases in order.

These types hold any arrangement of segments. Only some arrangements are phrases of the language:
those that `Plan.ofProgram` takes.
-/

namespace Reshape

/-- A constant in a phrase. -/
inductive Constant where
  /-- A number. -/
  | number (value : Number)
  /-- A name that stands for itself. -/
  | word (text : String)
deriving DecidableEq

/-- What a step of a phrase is. -/
inductive Segment.Form where
  /-- A name: one level of nesting in the output. -/
  | name (text : String)
  /-- `#name`: a property of the current value. -/
  | property (text : String)
  /-- `$`: the whole input. -/
  | input
  /-- `$>`: what follows is done for every element of the input. -/
  | each
  /-- `key:value`: a constant under a key. -/
  | constant (key : String) (value : Constant)
deriving DecidableEq

/-- A step of a phrase, with the offset of the token that introduces it. -/
structure Segment where
  /-- What the step is. -/
  form : Segment.Form
  /-- The offset of its first token. -/
  position : Nat
deriving DecidableEq

/-- One clause of a program. -/
inductive Phrase where
  /-- Names and then the input or one of its properties. -/
  | path (segments : List Segment)
  /-- Names and then a constant under a key. -/
  | value (segments : List Segment)
  /-- Names, and then what is done for every element. -/
  | map (lead segments : List Segment)
deriving DecidableEq

/-- The three kinds of phrases. -/
inductive Phrase.Kind where
  /-- The kind of `Phrase.path`. -/
  | path
  /-- The kind of `Phrase.value`. -/
  | value
  /-- The kind of `Phrase.map`. -/
  | map
deriving DecidableEq

/-- The kind of a phrase. -/
def Phrase.kind : Phrase → Phrase.Kind
  | .path _ => .path
  | .value _ => .value
  | .map _ _ => .map

/-- What a kind of phrase is called in messages. -/
def Phrase.Kind.text : Phrase.Kind → String
  | .path => "PathPhrase"
  | .value => "ValuePhrase"
  | .map => "MapPhrase"

/-- The phrases of a program, in order: later ones are laid over earlier ones. -/
structure Program where
  /-- The phrases. -/
  phrases : List Phrase
deriving DecidableEq

/-- Whether a program has no phrases. -/
def Program.isEmpty (program : Program) : Bool :=
  program.phrases.isEmpty

end Reshape
