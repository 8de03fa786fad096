import Reshape.Rejection

/-!
The program that tokens spell.

A phrase is read one token at a time. At every point only a few kinds of tokens can follow, and
which ones depends on no more than the stage that the phrase has reached:

    program := (phrase (';' phrase)*)? ';'?
    phrase  := (NAME '.')* ('$' | '#' NAME)
             | (NAME '.')* NAME ':' (NUMBER | NAME)
             | (NAME '.')* '$' '>' ('.'? NAME | '.'? '#' NAME)*

* `Stage`: how far the current phrase is.
* `Stage.next?`: the stage after one more token, none if that token cannot follow.
* `Stage.phrase?`: the phrase, if it may end here.
* `phrasesFrom`: the phrases of the tokens that are left.
* `Program.ofTokens`: the program of a list of tokens. The first token that cannot follow the ones
  before it is the one that is reported.
-/

namespace Reshape

/-- How far a phrase is. All stages but `complete` hold the names in front of the phrase. -/
inductive Stage where
  /-- A step has to come: at the start of a phrase, or after a name and a point. -/
  | step (lead : List Segment)
  /-- After a name, which may turn out to be a key. -/
  | name (lead : List Segment) (text : String) (position : Nat)
  /-- After `#`. -/
  | property (lead : List Segment) (position : Nat)
  /-- After a key and a colon. -/
  | constant (lead : List Segment) (key : String) (position : Nat)
  /-- After `$`, which may turn out to begin a map. -/
  | dollar (lead : List Segment) (position : Nat)
  /-- After the last token of a phrase. -/
  | complete (phrase : Phrase)
  /-- After `$>` and any number of steps. -/
  | map (lead segments : List Segment)
  /-- After a point in a map. -/
  | mapStep (lead segments : List Segment)
  /-- After `#` in a map. -/
  | mapProperty (lead segments : List Segment) (position : Nat)
deriving DecidableEq

namespace Stage

/-- The start of a phrase. -/
def start : Stage :=
  .step []

/-- The stage after one more token of the same phrase, none if the token cannot follow. -/
def next? (stage : Stage) (token : Token) : Option Stage :=
  match stage, token.kind with
  | .step lead, .identifier text => some (.name lead text token.position)
  | .step lead, .hash => some (.property lead token.position)
  | .step lead, .dollar => some (.dollar lead token.position)
  | .name lead text position, .dot => some (.step (lead ++ [⟨.name text, position⟩]))
  | .name lead text position, .colon => some (.constant lead text position)
  | .property lead position, .identifier text =>
    some (.complete (.path (lead ++ [⟨.property text, position⟩])))
  | .constant lead key position, .number value =>
    some (.complete (.value (lead ++ [⟨.constant key (.number value), position⟩])))
  | .constant lead key position, .identifier text =>
    some (.complete (.value (lead ++ [⟨.constant key (.word text), position⟩])))
  | .dollar lead position, .arrow => some (.map lead [⟨.each, position⟩])
  | .map lead segments, .dot => some (.mapStep lead segments)
  | .map lead segments, .identifier text =>
    some (.map lead (segments ++ [⟨.name text, token.position⟩]))
  | .map lead segments, .hash => some (.mapProperty lead segments token.position)
  | .mapStep lead segments, .identifier text =>
    some (.map lead (segments ++ [⟨.name text, token.position⟩]))
  | .mapStep lead segments, .hash => some (.mapProperty lead segments token.position)
  | .mapProperty lead segments position, .identifier text =>
    some (.map lead (segments ++ [⟨.property text, position⟩]))
  | _, _ => none

/-- The phrase that is read when the current phrase ends here, none if it cannot. -/
def phrase? : Stage → Option Phrase
  | .dollar lead position => some (.path (lead ++ [⟨.input, position⟩]))
  | .complete phrase => some phrase
  | .map lead segments => some (.map lead segments)
  | _ => none

end Stage

/-- The phrases of the tokens in front of `stop`, when a phrase has reached the given stage. A
separator ends a phrase; the last phrase may do without one. -/
def phrasesFrom (stop : Token) : Stage → List Token → Except Rejection (List Phrase)
  | .step [], [] => .ok []
  | stage, [] =>
    match stage.phrase? with
    | some phrase => .ok [phrase]
    | none => .error (.unexpectedToken stop)
  | stage, token :: rest =>
    match token.kind, stage.phrase? with
    | .semicolon, some phrase => (phrase :: ·) <$> phrasesFrom stop .start rest
    | _, _ =>
      match stage.next? token with
      | some after => phrasesFrom stop after rest
      | none => .error (.unexpectedToken token)

/-- The tokens in front of the end of the input. -/
def significant (tokens : List Token) : List Token :=
  tokens.takeWhile (·.kind ≠ .endOfInput)

/-- The token that marks the end of the input. If there is none, the end is taken to be just after
the start of the last token. -/
def stopToken (tokens : List Token) : Token :=
  match tokens.find? (·.kind = .endOfInput) with
  | some stop => stop
  | none => ⟨.endOfInput, (tokens.getLast?.map (·.position + 1)).getD 0⟩

/-- The program of a list of tokens. Tokens after the end of the input are not looked at, and a
separator alone is the program without phrases. -/
def Program.ofTokens (tokens : List Token) : Except Rejection Program :=
  match significant tokens with
  | [⟨.semicolon, _⟩] => .ok ⟨[]⟩
  | body => Program.mk <$> phrasesFrom (stopToken tokens) .start body

end Reshape
