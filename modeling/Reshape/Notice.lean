import Reshape.Plan.OfText

/-!
Notices: remarks on what is done with a phrase text.

* `Notice`: what can be remarked.
* `Plan.textNotices`: the notices of making a plan of a phrase text.
* `Plan.runNotices`: the notices of running a plan.
-/

namespace Reshape

/-- How detailed a notice is. -/
inductive Notice.Level where
  /-- Every step. -/
  | trace
  /-- What helps to find out why an output looks as it does. -/
  | debug
deriving DecidableEq

/-- A remark. -/
inductive Notice where
  /-- A text has been split into tokens. -/
  | lexed (tokens : Nat)
  /-- Names at the end of a map have no property to read. -/
  | dropped (names : List String)
  /-- A program has been made into a plan. -/
  | compiled (phrases : Nat) (plan : String)
  /-- Something that is not an array has been taken for one without items. -/
  | noItems (type : String)
deriving DecidableEq

namespace Notice

/-- The level of a notice. -/
def level : Notice → Level
  | .lexed _ => .trace
  | _ => .debug

/-- What a level is called. -/
def Level.text : Level → String
  | .trace => "TRACE"
  | .debug => "DEBUG"

/-- The text of a notice. -/
def message : Notice → String
  | .lexed tokens => "lexed " ++ tokens.repr ++ " token(s)"
  | .dropped names =>
    "dropping map key `" ++ ".".intercalate names ++ "` with no property to read"
  | .compiled phrases plan =>
    "compiled " ++ phrases.repr ++ " phrase(s) into a " ++ plan ++ " transform"
  | .noItems type => "map over " ++ type ++ " yields an empty array"

end Notice

/-- The names at the end of steps that no property follows. -/
def danglingNames (path : List String) : List Segment → List String
  | [] => path
  | segment :: rest =>
    match segment.form with
    | .name text => danglingNames (path ++ [text]) rest
    | _ => danglingNames [] rest

/-- The notice of a phrase, if it drops names. -/
def Phrase.notices : Phrase → List Notice
  | .map _ (_ :: steps) =>
    match danglingNames [] steps with
    | [] => []
    | names => [.dropped names]
  | _ => []

/-- The notices of making a plan of a program, if there is one. -/
def Program.notices (program : Program) : List Notice :=
  match Plan.ofProgram program with
  | .error _ => []
  | .ok plan =>
    program.phrases.flatMap Phrase.notices ++ [.compiled program.phrases.length plan.text]

/-- The notices of making a plan of a phrase text, as far as that goes. -/
def Plan.textNotices (text : String) : List Notice :=
  match Token.ofText text with
  | .error _ => []
  | .ok tokens =>
    let more := match Program.ofTokens tokens with
      | .error _ => []
      | .ok program => program.notices
    .lexed tokens.length :: more

/-- The notice of going through the items of an input, if it has none to go through. -/
def Value.itemNotices (input : Value) : List Notice :=
  if input.isArray then [] else [.noItems input.typeText]

/-- The notices of a selection. -/
def Selection.runNotices (selection : Selection) (input : Value) : List Notice :=
  match selection with
  | .gather _ => input.itemNotices
  | .records _ => input.itemNotices
  | _ => []

/-- The notices of running a plan. -/
def Plan.runNotices (plan : Plan) (input : Value) : List Notice :=
  match plan with
  | .empty => []
  | .single part => part.selection.runNotices input
  | .columns _ => input.itemNotices
  | .merge parts => parts.flatMap fun part => part.selection.runNotices input

end Reshape
