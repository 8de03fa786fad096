import Mathlib.Data.PFun
import Reshape.Rejection

/-!
Programs read by descent: a cursor in the list of tokens, and three loops that call each other.

`Program.ofTokens` goes through the tokens once and holds the stage that the phrase has reached.
A descent reads the same language from the top. The loop over the phrases of a program runs the loop
over the steps of a phrase, and this one, at a map operator, the loop over the steps of a map. The
cursor does not move on from the last token, so nothing in the definitions makes a loop end: a
descent can go on forever as far as they are concerned, and it can ask for a token that is not
there.

* `Descent`: something that is read with a cursor, and the record that is kept of it.
* `Descent.peek` and `Descent.advance`: the only ways to read a token and to move the cursor.
* `Descent.turns`: a loop, as the repetition of its turns.
* `Descent.programTurn`, `Descent.phraseTurn` and `Descent.mapTurn`: one turn of each loop.
* `Descent.marked`: tokens with a mark at the end of the input.
* `Descent.ofTokens`: the descent through a list of tokens.
-/

namespace Reshape

namespace Descent

/-- The loops of a descent. -/
inductive Loop where
  /-- Over the phrases of a program. -/
  | program
  /-- Over the steps of a phrase. -/
  | phrase
  /-- Over the steps behind a map operator. -/
  | map
deriving DecidableEq

/-- What is recorded of a descent. -/
inductive Event where
  /-- The token at a place is read. -/
  | read (place : Nat)
  /-- The cursor moves to a place. -/
  | move (place : Nat)
  /-- A turn of a loop begins. -/
  | turn (loop : Loop)
deriving DecidableEq

/-- How far a descent is. -/
structure State where
  /-- The place of the current token. -/
  cursor : Nat
  /-- What was done so far, the latest first. -/
  record : List Event

/-- Why a descent ends without a result. -/
inductive Halt where
  /-- A token was asked for at a place where there is none. -/
  | outside (place : Nat)
  /-- A token cannot follow the ones before it. -/
  | rejected (rejection : Rejection)

/-- The outcome of a turn of a loop. -/
inductive Turn (σ α : Type) where
  /-- There is another turn. -/
  | again (next : σ)
  /-- The loop ends. -/
  | done (result : α)

end Descent

/-- Something that is read with a cursor: from a state it leads to a result or a reason why there is
none, and to the state that is reached then. It leads to nothing if it goes on forever. -/
abbrev Descent (α : Type) : Type :=
  ExceptT Descent.Halt (StateT Descent.State Part) α

namespace Descent

/-- What follows on a turn of a loop: the loop ends, or it goes on from a place and a state. -/
def Turn.follow {σ α : Type} :
    Except Halt (Turn σ α) × State → (Except Halt α × State) ⊕ (σ × State)
  | (.ok (.again next), state) => .inr (next, state)
  | (.ok (.done result), state) => .inl (.ok result, state)
  | (.error halt, state) => .inl (.error halt, state)

/-- A loop: turns are made until one of them ends it. -/
def turns {σ α : Type} (turn : σ → Descent (Turn σ α)) (start : σ) : Descent α := fun state =>
  PFun.fix (fun place => Turn.follow <$> (turn place.1).run.run place.2) (start, state)

/-- Something is recorded. -/
def note (event : Event) : Descent Unit :=
  modify fun state => { state with record := event :: state.record }

section

variable (tokens : List Token)

/-! ### Tokens at the cursor -/

/-- The token a number of places behind the cursor, and the last token where there are not so
many. -/
def peek (offset : Nat) : Descent Token := do
  let place := min ((← get).cursor + offset) (tokens.length - 1)
  note (.read place)
  match tokens[place]? with
  | some token => return token
  | none => throw (.outside place)

/-- The token at the cursor. -/
def current : Descent Token :=
  peek tokens 0

/-- The cursor moves to the next token, unless it is at the last one. -/
def advance : Descent Unit := do
  let place := (← get).cursor
  if place < tokens.length - 1 then
    modify fun state => { state with cursor := place + 1 }
    note (.move (place + 1))

/-- Whether the current token is of a kind. -/
def check (kind : Token.Kind) : Descent Bool := do
  return (← current tokens).kind = kind

/-- Whether the current token ends a phrase. -/
def atPhraseEnd : Descent Bool := do
  if ← check tokens .semicolon then return true
  else check tokens .endOfInput

/-- The current token cannot follow the ones before it. -/
def unexpected {α : Type} : Descent α := do
  throw (.rejected (.unexpectedToken (← current tokens)))

/-- A phrase is read if it ends here. -/
def finish (phrase : Phrase) : Descent Phrase := do
  if ← atPhraseEnd tokens then return phrase
  else unexpected tokens

/-! ### Phrases -/

/-- A property, from its mark on. -/
def property : Descent Segment := do
  let position := (← current tokens).position
  advance tokens
  match (← current tokens).kind with
  | .identifier text => do
    advance tokens
    return ⟨.property text, position⟩
  | _ => unexpected tokens

/-- The constant of a key, from the colon on. -/
def constant (lead : List Segment) (key : String) (position : Nat) : Descent Phrase := do
  advance tokens
  match (← current tokens).kind with
  | .number value => do
    advance tokens
    finish tokens (.value (lead ++ [⟨.constant key (.number value), position⟩]))
  | .identifier text => do
    advance tokens
    finish tokens (.value (lead ++ [⟨.constant key (.word text), position⟩]))
  | _ => unexpected tokens

/-- A turn of the loop over the steps behind a map operator. -/
def mapTurn (lead segments : List Segment) : Descent (Turn (List Segment) Phrase) := do
  if ← atPhraseEnd tokens then return .done (.map lead segments)
  else
    note (.turn .map)
    let token ← current tokens
    match token.kind with
    | .dot => do
      advance tokens
      match (← current tokens).kind with
      | .identifier _ | .hash => return .again segments
      | _ => unexpected tokens
    | .identifier text => do
      advance tokens
      if ← check tokens .colon then unexpected tokens
      else return .again (segments ++ [⟨.name text, token.position⟩])
    | .hash => return .again (segments ++ [← property tokens])
    | _ => unexpected tokens

/-- A map, from its operator on. -/
def map (lead : List Segment) : Descent Phrase := do
  let position := (← current tokens).position
  advance tokens
  advance tokens
  turns (mapTurn tokens lead) [⟨.each, position⟩]

/-- A turn of the loop over the steps of a phrase. -/
def phraseTurn (segments : List Segment) : Descent (Turn (List Segment) Phrase) := do
  note (.turn .phrase)
  let token ← current tokens
  match token.kind with
  | .identifier text => do
    advance tokens
    if ← check tokens .colon then return .done (← constant tokens segments text token.position)
    else if ← check tokens .dot then
      return .again (segments ++ [⟨.name text, token.position⟩])
    else unexpected tokens
  | .dot => do
    advance tokens
    match (← current tokens).kind with
    | .identifier _ | .hash | .dollar => return .again segments
    | _ => unexpected tokens
  | .hash => do
    let segment ← property tokens
    return .done (← finish tokens (.path (segments ++ [segment])))
  | .dollar => do
    if (← peek tokens 1).kind = .arrow then return .done (← map tokens segments)
    else
      advance tokens
      return .done (← finish tokens (.path (segments ++ [⟨.input, token.position⟩])))
  | _ => unexpected tokens

/-- A phrase. It does not begin with a point. -/
def phrase : Descent Phrase := do
  if ← check tokens .dot then unexpected tokens
  else turns (phraseTurn tokens) []

/-! ### Programs -/

/-- A turn of the loop over the phrases of a program. -/
def programTurn (phrases : List Phrase) : Descent (Turn (List Phrase) (List Phrase)) := do
  if ← check tokens .endOfInput then return .done phrases
  else
    note (.turn .program)
    let phrase ← phrase tokens
    if ← check tokens .semicolon then
      advance tokens
      return .again (phrases ++ [phrase])
    else return .again (phrases ++ [phrase])

/-- Whether a separator is all that is left. -/
def atLoneSeparator : Descent Bool := do
  if ← check tokens .semicolon then return (← peek tokens 1).kind = .endOfInput
  else return false

/-- A program. A separator alone is the program without phrases. -/
def program : Descent Program := do
  if ← atLoneSeparator tokens then return ⟨[]⟩
  else return ⟨← turns (programTurn tokens) []⟩

end

/-- Tokens with a mark at the end of the input, which is supplied if it does not come last. -/
def marked (tokens : List Token) : List Token :=
  match tokens.getLast? with
  | some ⟨.endOfInput, _⟩ => tokens
  | last => tokens ++ [⟨.endOfInput, (last.map (·.position + 1)).getD 0⟩]

/-- The descent through a list of tokens: its outcome and the state that it reaches. -/
def ofTokens (tokens : List Token) : Part (Except Halt Program × State) :=
  (program (marked tokens)).run.run ⟨0, []⟩

end Descent

end Reshape
