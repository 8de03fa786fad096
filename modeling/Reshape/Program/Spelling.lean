import Reshape.Program.Basic
import Reshape.Token.Basic

/-!
Which tokens spell which phrases.

The grammar of programs as relations between tokens and trees, with the place of every segment:

    program := (phrase (';' phrase)*)? ';'?
    phrase  := (NAME '.')* ('$' | '#' NAME)
             | (NAME '.')* NAME ':' (NUMBER | NAME)
             | (NAME '.')* '$' '>' ('.'? NAME | '.'? '#' NAME)*

* `SpellsLead`: names in front of a phrase.
* `SpellsSteps`: what follows the map operator.
* `SpellsPhrase`: a phrase.
* `SpellsPhrases`: the phrases of a program.
-/

namespace Reshape

/-- The tokens are names with a point after each, and the segments are those names. -/
inductive SpellsLead : List Token → List Segment → Prop where
  | nil : SpellsLead [] []
  | cons {tokens : List Token} {lead : List Segment} (text : String) (p q : Nat) :
      SpellsLead tokens lead →
      SpellsLead (⟨.identifier text, p⟩ :: ⟨.dot, q⟩ :: tokens) (⟨.name text, p⟩ :: lead)

/-- The tokens are names and properties, each with a point in front of it or without one, and the
segments are those names and properties. -/
inductive SpellsSteps : List Token → List Segment → Prop where
  | nil : SpellsSteps [] []
  | name {tokens : List Token} {steps : List Segment} (text : String) (p : Nat) :
      SpellsSteps tokens steps →
      SpellsSteps (⟨.identifier text, p⟩ :: tokens) (⟨.name text, p⟩ :: steps)
  | dotName {tokens : List Token} {steps : List Segment} (text : String) (p q : Nat) :
      SpellsSteps tokens steps →
      SpellsSteps (⟨.dot, q⟩ :: ⟨.identifier text, p⟩ :: tokens) (⟨.name text, p⟩ :: steps)
  | property {tokens : List Token} {steps : List Segment} (text : String) (p q : Nat) :
      SpellsSteps tokens steps →
      SpellsSteps (⟨.hash, p⟩ :: ⟨.identifier text, q⟩ :: tokens) (⟨.property text, p⟩ :: steps)
  | dotProperty {tokens : List Token} {steps : List Segment} (text : String) (p q r : Nat) :
      SpellsSteps tokens steps →
      SpellsSteps (⟨.dot, r⟩ :: ⟨.hash, p⟩ :: ⟨.identifier text, q⟩ :: tokens)
        (⟨.property text, p⟩ :: steps)

/-- The tokens are those of one phrase. -/
inductive SpellsPhrase : List Token → Phrase → Prop where
  | input {tokens : List Token} {lead : List Segment} (p : Nat) :
      SpellsLead tokens lead →
      SpellsPhrase (tokens ++ [⟨.dollar, p⟩]) (.path (lead ++ [⟨.input, p⟩]))
  | property {tokens : List Token} {lead : List Segment} (text : String) (p q : Nat) :
      SpellsLead tokens lead →
      SpellsPhrase (tokens ++ [⟨.hash, p⟩, ⟨.identifier text, q⟩])
        (.path (lead ++ [⟨.property text, p⟩]))
  | number {tokens : List Token} {lead : List Segment} (key : String) (value : Number)
      (p q r : Nat) :
      SpellsLead tokens lead →
      SpellsPhrase (tokens ++ [⟨.identifier key, p⟩, ⟨.colon, q⟩, ⟨.number value, r⟩])
        (.value (lead ++ [⟨.constant key (.number value), p⟩]))
  | word {tokens : List Token} {lead : List Segment} (key text : String) (p q r : Nat) :
      SpellsLead tokens lead →
      SpellsPhrase (tokens ++ [⟨.identifier key, p⟩, ⟨.colon, q⟩, ⟨.identifier text, r⟩])
        (.value (lead ++ [⟨.constant key (.word text), p⟩]))
  | map {tokens more : List Token} {lead steps : List Segment} (p q : Nat) :
      SpellsLead tokens lead → SpellsSteps more steps →
      SpellsPhrase (tokens ++ ⟨.dollar, p⟩ :: ⟨.arrow, q⟩ :: more)
        (.map lead (⟨.each, p⟩ :: steps))

/-- The tokens are those of phrases with separators between them, perhaps with one at the end. A
separator alone spells no phrase. -/
inductive SpellsPhrases : List Token → List Phrase → Prop where
  | nil : SpellsPhrases [] []
  | separator (p : Nat) : SpellsPhrases [⟨.semicolon, p⟩] []
  | last {tokens : List Token} {phrase : Phrase} :
      SpellsPhrase tokens phrase → SpellsPhrases tokens [phrase]
  | lastSeparator {tokens : List Token} {phrase : Phrase} (p : Nat) :
      SpellsPhrase tokens phrase → SpellsPhrases (tokens ++ [⟨.semicolon, p⟩]) [phrase]
  | cons {tokens more : List Token} {phrase next : Phrase} {phrases : List Phrase} (p : Nat) :
      SpellsPhrase tokens phrase → SpellsPhrases more (next :: phrases) →
      SpellsPhrases (tokens ++ ⟨.semicolon, p⟩ :: more) (phrase :: next :: phrases)

end Reshape
