/-!
Reading the arguments of the command line.

    check PHRASES [-i|--input JSON] [-p|--pretty] [--syntax-only]
    tokens PHRASES
    ast PHRASES

Options may stand on both sides of the phrase text. One-letter options can be written together, and
the value of an option can be attached to it. No option may be given twice. After `--` everything
is phrase text.

* `Command`: what is to be done.
* `Command.ofArguments?`: the command of a list of arguments, none if they are not well-formed.
-/

namespace Reshape

/-- What is to be done. -/
inductive Command where
  /-- Check a phrase text and run it. -/
  | check (phrases : String) (input : Option String) (pretty syntaxOnly : Bool)
  /-- List the tokens of a phrase text. -/
  | tokens (phrases : String)
  /-- Write out the tree of a phrase text. -/
  | ast (phrases : String)
deriving DecidableEq

/-- The arguments after the name of a command, as far as they are read. -/
structure Arguments where
  /-- The phrase text. -/
  phrases : Option String
  /-- The value of `--input`. -/
  input : Option String
  /-- Whether `--pretty` is given. -/
  pretty : Bool
  /-- Whether `--syntax-only` is given. -/
  syntaxOnly : Bool

namespace Arguments

/-- No arguments. -/
def none : Arguments :=
  ⟨.none, .none, false, false⟩

/-- Takes a phrase text. There may be only one. -/
def addPhrases (a : Arguments) (text : String) : Option Arguments :=
  match a.phrases with
  | .none => some { a with phrases := some text }
  | some _ => .none

/-- Takes the value of `--input`. There may be only one. -/
def addInput (a : Arguments) (text : String) : Option Arguments :=
  match a.input with
  | .none => some { a with input := some text }
  | some _ => .none

/-- Takes `--pretty`. -/
def addPretty (a : Arguments) : Option Arguments :=
  if a.pretty then .none else some { a with pretty := true }

/-- Takes `--syntax-only`. -/
def addSyntaxOnly (a : Arguments) : Option Arguments :=
  if a.syntaxOnly then .none else some { a with syntaxOnly := true }

/-- Takes the text attached to `--input` or `-i`. -/
def addAttached (a : Arguments) (text : List Char) : Option Arguments :=
  a.addInput (String.ofList text)

/-- One-letter options written together, and whether the last of them still needs a value. -/
def addLetters (a : Arguments) : List Char → Option (Arguments × Bool)
  | [] => some (a, false)
  | 'p' :: rest => a.addPretty.bind fun a => addLetters a rest
  | ['i'] => some (a, true)
  | 'i' :: '=' :: value => (a.addAttached value).map (·, false)
  | 'i' :: value => (a.addAttached value).map (·, false)
  | _ => .none

/-- An option with a long name, given after the dashes, and whether it still needs a value. -/
def addLong (a : Arguments) (name : List Char) : Option (Arguments × Bool) :=
  if name = "input".toList then some (a, true)
  else if name = "pretty".toList then a.addPretty.map (·, false)
  else if name = "syntax-only".toList then a.addSyntaxOnly.map (·, false)
  else if "input=".toList.isPrefixOf name then
    (a.addAttached (name.drop "input=".length)).map (·, false)
  else .none

/-- Whether an argument can be the value of an option: it must not look like an option. -/
def isValue (argument : String) : Bool :=
  match argument.toList with
  | '-' :: _ :: _ => false
  | _ => true

/-- Takes an argument, and says whether it still needs a value. -/
def addArgument (a : Arguments) (argument : String) : Option (Arguments × Bool) :=
  match argument.toList with
  | '-' :: '-' :: name => a.addLong name
  | '-' :: letter :: letters => a.addLetters (letter :: letters)
  | _ => (a.addPhrases argument).map (·, false)

/-- Takes arguments in order. Those after `--` are all phrase text. -/
def addAll (a : Arguments) : List String → Option Arguments
  | [] => some a
  | argument :: rest =>
    if argument = "--" then rest.foldlM addPhrases a
    else
      match a.addArgument argument with
      | .none => .none
      | some (a, false) => a.addAll rest
      | some (a, true) =>
        match rest with
        | [] => .none
        | value :: rest =>
          if isValue value then (a.addInput value).bind fun a => a.addAll rest else .none

/-- The phrase text alone, if nothing else is given. -/
def phrasesOnly? (a : Arguments) : Option String :=
  match a with
  | ⟨phrases, .none, false, false⟩ => phrases
  | _ => .none

end Arguments

/-- The command of a list of arguments. -/
def Command.ofArguments? : List String → Option Command
  | [] => none
  | name :: rest => do
    let arguments ← Arguments.none.addAll rest
    match name with
    | "check" =>
      let phrases ← arguments.phrases
      return .check phrases arguments.input arguments.pretty arguments.syntaxOnly
    | "tokens" => .tokens <$> arguments.phrasesOnly?
    | "ast" => .ast <$> arguments.phrasesOnly?
    | _ => none

end Reshape
