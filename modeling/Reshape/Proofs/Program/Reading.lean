import Reshape.Program.Spelling
import Reshape.Program.Stage
import Reshape.Proofs.Attempt

/-!
Reading phrases token by token: the stages of a phrase against the grammar.

* `Stage.read?`: the phrase that tokens complete when a phrase has reached a stage.
* `Phrase.prepend`: a phrase with further names in front of it.
* `read?_map_iff` and `read?_step_iff`: after the map operator, and wherever a step has to come, the
  tokens complete exactly what they spell.
* `Stage.kind_ne_of_read?` and `not_spellsPhrases_semicolon`: no phrase holds a separator, and
  phrases do not begin with one.
* `phrasesFrom_cons_cases`: one more token leads on to a stage or is rejected, whatever follows it.
* `phrasesFrom_cases`: the phrases from a stage on, split at the first separator.
* `spellsPhrases_of_phrasesFrom` and `phrasesFrom_of_spellsPhrases`: the phrases of tokens are those
  that the tokens spell.
* `ofTokens_eq_ok_iff`: the same for programs, where a separator alone is allowed.
-/

namespace Reshape

/-- A phrase with further names in front of it. -/
def Phrase.prepend (lead : List Segment) : Phrase → Phrase
  | .path segments => .path (lead ++ segments)
  | .value segments => .value (lead ++ segments)
  | .map names segments => .map (lead ++ names) segments

@[simp] lemma prepend_nil (phrase : Phrase) : phrase.prepend [] = phrase := by
  cases phrase <;> rfl

lemma prepend_append (outer inner : List Segment) (phrase : Phrase) :
    phrase.prepend (outer ++ inner) = (phrase.prepend inner).prepend outer := by
  cases phrase <;> simp [Phrase.prepend]

/-- A name and a point in front of the tokens put the name in front of the phrase. -/
lemma SpellsPhrase.cons {tokens : List Token} {phrase : Phrase} (text : String) (p q : Nat)
    (h : SpellsPhrase tokens phrase) :
    SpellsPhrase (⟨.identifier text, p⟩ :: ⟨.dot, q⟩ :: tokens)
      (phrase.prepend [⟨.name text, p⟩]) := by
  cases h with
  | input r hl => exact .input r (hl.cons text p q)
  | property name r s hl => exact .property name r s (hl.cons text p q)
  | number key value r s t hl => exact .number key value r s t (hl.cons text p q)
  | word key word r s t hl => exact .word key word r s t (hl.cons text p q)
  | map r s hl hs => exact .map r s (hl.cons text p q) hs

/-- A point may stand in front of a property. -/
lemma SpellsSteps.dot {tokens : List Token} {steps : List Segment} {p : Nat} (q : Nat)
    (h : SpellsSteps (⟨.hash, p⟩ :: tokens) steps) :
    SpellsSteps (⟨.dot, q⟩ :: ⟨.hash, p⟩ :: tokens) steps := by
  cases h with
  | property text _ r hs => exact .dotProperty text p r q hs

namespace Stage

/-- The phrase that the tokens complete when a phrase has reached the stage. -/
def read? (stage : Stage) : List Token → Option Phrase
  | [] => stage.phrase?
  | token :: rest => (stage.next? token).bind (·.read? rest)

lemma read?_cons_of_next? {stage after : Stage} {token : Token} (h : stage.next? token = some after)
    (rest : List Token) : stage.read? (token :: rest) = after.read? rest := by
  rw [read?, h, Option.bind_some]

lemma read?_cons_of_none {stage : Stage} {token : Token} (h : stage.next? token = none)
    (rest : List Token) : stage.read? (token :: rest) = none := by
  rw [read?, h, Option.bind_none]

/-- A token that cannot follow completes no phrase. -/
lemma read?_cons_ne_some {stage : Stage} {token : Token} {rest : List Token} {phrase : Phrase}
    (h : stage.next? token = none) : stage.read? (token :: rest) ≠ some phrase := by
  rw [read?_cons_of_none h]
  exact (Option.some_ne_none phrase).symm

/-! ### The stages of a map -/

/-- What is read after the map operator is spelled by the tokens. The three stages of a map are
gone through together. -/
lemma spells_of_read?_map {tokens : List Token} {lead : List Segment} {phrase : Phrase} :
    ∀ segments,
      ((Stage.map lead segments).read? tokens = some phrase →
        ∃ steps, SpellsSteps tokens steps ∧ phrase = .map lead (segments ++ steps))
      ∧ (∀ q, (Stage.mapStep lead segments).read? tokens = some phrase →
        ∃ steps, SpellsSteps (⟨.dot, q⟩ :: tokens) steps ∧ phrase = .map lead (segments ++ steps))
      ∧ (∀ p, (Stage.mapProperty lead segments p).read? tokens = some phrase →
        ∃ steps, SpellsSteps (⟨.hash, p⟩ :: tokens) steps
          ∧ phrase = .map lead (segments ++ steps)) := by
  induction tokens with
  | nil =>
      intro segments
      refine ⟨fun h => ⟨[], .nil, ?_⟩, fun q h => ?_, fun p h => ?_⟩
      · simpa [read?, phrase?, eq_comm] using h
      · simp [read?, phrase?] at h
      · simp [read?, phrase?] at h
  | cons token rest ih =>
      intro segments
      obtain ⟨kind, r⟩ := token
      refine ⟨fun h => ?_, fun q h => ?_, fun p h => ?_⟩
      · cases kind with
        | identifier text =>
            rw [read?_cons_of_next? (by rfl)] at h
            obtain ⟨steps, hs, rfl⟩ := (ih _).1 h
            exact ⟨_, .name text r hs, by simp⟩
        | dot => exact (ih segments).2.1 r h
        | hash => exact (ih segments).2.2 r h
        | _ => exact absurd h (read?_cons_ne_some rfl)
      · cases kind with
        | identifier text =>
            rw [read?_cons_of_next? (by rfl)] at h
            obtain ⟨steps, hs, rfl⟩ := (ih _).1 h
            exact ⟨_, .dotName text r q hs, by simp⟩
        | hash =>
            obtain ⟨steps, hs, rfl⟩ := (ih segments).2.2 r h
            exact ⟨steps, hs.dot q, rfl⟩
        | _ => exact absurd h (read?_cons_ne_some rfl)
      · cases kind with
        | identifier text =>
            rw [read?_cons_of_next? (by rfl)] at h
            obtain ⟨steps, hs, rfl⟩ := (ih _).1 h
            exact ⟨_, .property text p r hs, by simp⟩
        | _ => exact absurd h (read?_cons_ne_some rfl)

/-- Steps that the tokens spell are read after the map operator. -/
lemma read?_map_of_spells {tokens : List Token} {steps : List Segment}
    (h : SpellsSteps tokens steps) (lead segments : List Segment) :
    (Stage.map lead segments).read? tokens = some (.map lead (segments ++ steps)) := by
  induction h generalizing segments with
  | nil => simp [read?, phrase?]
  | name text p _ ih =>
      rw [read?_cons_of_next? (by rfl), ih]
      simp
  | dotName text p q _ ih =>
      rw [read?_cons_of_next? (by rfl), read?_cons_of_next? (by rfl), ih]
      simp
  | property text p q _ ih =>
      rw [read?_cons_of_next? (by rfl), read?_cons_of_next? (by rfl), ih]
      simp
  | dotProperty text p q r _ ih =>
      rw [read?_cons_of_next? (by rfl), read?_cons_of_next? (by rfl),
        read?_cons_of_next? (by rfl), ih]
      simp

/-- After the map operator, the tokens complete exactly the maps with the steps that they spell. -/
lemma read?_map_iff {tokens : List Token} {lead segments : List Segment} {phrase : Phrase} :
    (Stage.map lead segments).read? tokens = some phrase ↔
      ∃ steps, SpellsSteps tokens steps ∧ phrase = .map lead (segments ++ steps) := by
  refine ⟨?_, ?_⟩
  · exact (spells_of_read?_map segments).1
  · rintro ⟨steps, hs, rfl⟩
    exact read?_map_of_spells hs lead segments

/-! ### The stages that end a phrase -/

lemma read?_complete_iff {tokens : List Token} {own phrase : Phrase} :
    (Stage.complete own).read? tokens = some phrase ↔ tokens = [] ∧ phrase = own := by
  cases tokens with
  | nil => simp [read?, phrase?, eq_comm]
  | cons token rest =>
      rw [read?_cons_of_none (by rfl)]
      simp

/-- After `#` there is a name and nothing else. -/
lemma read?_property_iff {tokens : List Token} {lead : List Segment} {p : Nat} {phrase : Phrase} :
    (Stage.property lead p).read? tokens = some phrase ↔
      ∃ text q, tokens = [⟨.identifier text, q⟩]
        ∧ phrase = .path (lead ++ [⟨.property text, p⟩]) := by
  cases tokens with
  | nil => simp [read?, phrase?]
  | cons token rest =>
      obtain ⟨kind, q⟩ := token
      cases kind with
      | identifier text =>
          rw [read?_cons_of_next? (by rfl), read?_complete_iff]
          simp
      | _ =>
          rw [read?_cons_of_none (by rfl)]
          simp

/-- After a key and a colon there is a number or a name and nothing else. -/
lemma read?_constant_iff {tokens : List Token} {lead : List Segment} {key : String} {p : Nat}
    {phrase : Phrase} :
    (Stage.constant lead key p).read? tokens = some phrase ↔
      (∃ value q, tokens = [⟨.number value, q⟩]
        ∧ phrase = .value (lead ++ [⟨.constant key (.number value), p⟩]))
      ∨ ∃ text q, tokens = [⟨.identifier text, q⟩]
        ∧ phrase = .value (lead ++ [⟨.constant key (.word text), p⟩]) := by
  cases tokens with
  | nil => simp [read?, phrase?]
  | cons token rest =>
      obtain ⟨kind, q⟩ := token
      cases kind with
      | identifier text =>
          rw [read?_cons_of_next? (by rfl), read?_complete_iff]
          simp
      | number value =>
          rw [read?_cons_of_next? (by rfl), read?_complete_iff]
          simp
      | _ =>
          rw [read?_cons_of_none (by rfl)]
          simp

/-- After `$` the phrase ends, or the steps of a map follow. -/
lemma read?_dollar_iff {tokens : List Token} {lead : List Segment} {p : Nat} {phrase : Phrase} :
    (Stage.dollar lead p).read? tokens = some phrase ↔
      (tokens = [] ∧ phrase = .path (lead ++ [⟨.input, p⟩]))
      ∨ ∃ q rest steps, tokens = ⟨.arrow, q⟩ :: rest ∧ SpellsSteps rest steps
        ∧ phrase = .map lead (⟨.each, p⟩ :: steps) := by
  cases tokens with
  | nil =>
      simp only [read?, phrase?, Option.some.injEq, true_and, reduceCtorEq, false_and, exists_false,
        or_false]
      exact eq_comm
  | cons token rest =>
      obtain ⟨kind, q⟩ := token
      cases kind with
      | arrow =>
          rw [read?_cons_of_next? (by rfl), read?_map_iff]
          refine ⟨?_, ?_⟩
          · rintro ⟨steps, hs, rfl⟩
            exact .inr ⟨q, rest, steps, rfl, hs, rfl⟩
          · rintro (⟨h, -⟩ | ⟨_, _, steps, h, hs, rfl⟩)
            · exact absurd h (by simp)
            · obtain ⟨-, rfl⟩ := List.cons.inj h
              exact ⟨steps, hs, rfl⟩
      | _ =>
          rw [read?_cons_of_none (by rfl)]
          simp

/-! ### The stages in front of a phrase -/

/-- What is read where a step has to come is spelled by the tokens, behind the names that are
already read. After a name, that name counts among the tokens. -/
lemma spells_of_read?_step {tokens : List Token} {phrase : Phrase} :
    ∀ lead,
      ((Stage.step lead).read? tokens = some phrase →
        ∃ own, SpellsPhrase tokens own ∧ phrase = own.prepend lead)
      ∧ (∀ text p, (Stage.name lead text p).read? tokens = some phrase →
        ∃ own, SpellsPhrase (⟨.identifier text, p⟩ :: tokens) own
          ∧ phrase = own.prepend lead) := by
  induction tokens with
  | nil =>
      intro lead
      exact ⟨fun h => by simp [read?, phrase?] at h, fun _ _ h => by simp [read?, phrase?] at h⟩
  | cons token rest ih =>
      intro lead
      obtain ⟨kind, r⟩ := token
      refine ⟨fun h => ?_, fun text p h => ?_⟩
      · cases kind with
        | identifier text => exact (ih lead).2 text r h
        | hash =>
            rw [read?_cons_of_next? (by rfl), read?_property_iff] at h
            obtain ⟨text, q, rfl, rfl⟩ := h
            exact ⟨_, .property text r q .nil, rfl⟩
        | dollar =>
            rw [read?_cons_of_next? (by rfl), read?_dollar_iff] at h
            rcases h with ⟨rfl, rfl⟩ | ⟨q, more, steps, rfl, hs, rfl⟩
            · exact ⟨_, .input r .nil, rfl⟩
            · exact ⟨_, .map r q .nil hs, by simp [Phrase.prepend]⟩
        | _ => exact absurd h (read?_cons_ne_some rfl)
      · cases kind with
        | dot =>
            rw [read?_cons_of_next? (by rfl)] at h
            obtain ⟨own, ho, rfl⟩ := (ih _).1 h
            exact ⟨_, ho.cons text p r, prepend_append lead _ own⟩
        | colon =>
            rw [read?_cons_of_next? (by rfl), read?_constant_iff] at h
            rcases h with ⟨value, q, rfl, rfl⟩ | ⟨word, q, rfl, rfl⟩
            · exact ⟨_, .number text value p r q .nil, rfl⟩
            · exact ⟨_, .word text word p r q .nil, rfl⟩
        | _ => exact absurd h (read?_cons_ne_some rfl)

/-- Names with a point after each are read one after the other. -/
lemma read?_step_append {tokens : List Token} {names : List Segment} (h : SpellsLead tokens names)
    (lead : List Segment) (more : List Token) :
    (Stage.step lead).read? (tokens ++ more) = (Stage.step (lead ++ names)).read? more := by
  induction h generalizing lead with
  | nil => simp
  | cons text p q _ ih =>
      rw [List.cons_append, List.cons_append, read?_cons_of_next? (by rfl),
        read?_cons_of_next? (by rfl), ih]
      simp

/-- A phrase that the tokens spell is read behind the names that are already read. -/
lemma read?_step_of_spells {tokens : List Token} {own : Phrase} (h : SpellsPhrase tokens own)
    (lead : List Segment) : (Stage.step lead).read? tokens = some (own.prepend lead) := by
  cases h with
  | input p hl =>
      rw [read?_step_append hl, read?_cons_of_next? (by rfl)]
      simp [read?, phrase?, Phrase.prepend]
  | property text p q hl =>
      rw [read?_step_append hl, read?_cons_of_next? (by rfl), read?_cons_of_next? (by rfl)]
      simp [read?, phrase?, Phrase.prepend]
  | number key value p q r hl =>
      rw [read?_step_append hl, read?_cons_of_next? (by rfl), read?_cons_of_next? (by rfl),
        read?_cons_of_next? (by rfl)]
      simp [read?, phrase?, Phrase.prepend]
  | word key text p q r hl =>
      rw [read?_step_append hl, read?_cons_of_next? (by rfl), read?_cons_of_next? (by rfl),
        read?_cons_of_next? (by rfl)]
      simp [read?, phrase?, Phrase.prepend]
  | map p q hl hs =>
      rw [read?_step_append hl, read?_cons_of_next? (by rfl), read?_cons_of_next? (by rfl),
        read?_map_of_spells hs]
      simp [Phrase.prepend]

/-- Where a step has to come, the tokens complete exactly the phrases that they spell, behind the
names that are already read. -/
lemma read?_step_iff {tokens : List Token} {lead : List Segment} {phrase : Phrase} :
    (Stage.step lead).read? tokens = some phrase ↔
      ∃ own, SpellsPhrase tokens own ∧ phrase = own.prepend lead := by
  refine ⟨?_, ?_⟩
  · exact (spells_of_read?_step lead).1
  · rintro ⟨own, ho, rfl⟩
    exact read?_step_of_spells ho lead

/-- At the start of a phrase, the tokens complete exactly the phrases that they spell. -/
lemma read?_start_iff {tokens : List Token} {phrase : Phrase} :
    Stage.start.read? tokens = some phrase ↔ SpellsPhrase tokens phrase := by
  rw [start, read?_step_iff]
  simp

/-! ### The end of a phrase -/

/-- No phrase goes on with a separator or with the end of the input. -/
lemma next?_eq_none {stage : Stage} {token : Token}
    (h : token.kind = .semicolon ∨ token.kind = .endOfInput) : stage.next? token = none := by
  obtain ⟨kind, p⟩ := token
  rcases h with rfl | rfl <;> cases stage <;> rfl

/-- Tokens that complete a phrase hold neither a separator nor the end of the input. -/
lemma kind_ne_of_read? {stage : Stage} {tokens : List Token} {phrase : Phrase}
    (h : stage.read? tokens = some phrase) :
    ∀ token ∈ tokens, token.kind ≠ .semicolon ∧ token.kind ≠ .endOfInput := by
  induction tokens generalizing stage with
  | nil => simp
  | cons token rest ih =>
      cases hn : stage.next? token with
      | none => simp [read?_cons_of_none hn] at h
      | some after =>
          rw [read?_cons_of_next? hn] at h
          refine List.forall_mem_cons.mpr ⟨not_or.mp fun hk => ?_, ih h⟩
          rw [next?_eq_none hk] at hn
          exact absurd hn (by simp)

/-- No token leads back to the start of a phrase. -/
lemma next?_ne_start {stage after : Stage} {token : Token} (h : stage.next? token = some after) :
    after ≠ .start := by
  rintro rfl
  unfold next? at h
  split at h <;> simp [start] at h

end Stage

/-! ### The phrases of tokens -/

section PhrasesFrom

variable {stop token : Token} {stage after : Stage} {tokens rest : List Token}
  {phrase : Phrase} {phrases : List Phrase}

lemma phrasesFrom_start_nil : phrasesFrom stop .start [] = .ok [] := by
  rw [Stage.start, phrasesFrom]

/-- At the end of the tokens a phrase that has begun has to be complete. -/
lemma phrasesFrom_nil (h : stage ≠ .start) :
    phrasesFrom stop stage [] =
      match stage.phrase? with
      | some phrase => .ok [phrase]
      | none => .error (.unexpectedToken stop) := by
  unfold phrasesFrom
  split
  · exact absurd rfl h
  · rfl
  · next hs => exact absurd hs (by simp)

/-- A separator ends a phrase that is complete. -/
lemma phrasesFrom_semicolon (h : stage.phrase? = some phrase) (p : Nat) :
    phrasesFrom stop stage (⟨.semicolon, p⟩ :: rest) =
      (phrase :: ·) <$> phrasesFrom stop .start rest := by
  rw [phrasesFrom, h]

/-- A token that can follow leads on to the next stage. -/
lemma phrasesFrom_cons_of_next? (h : stage.next? token = some after) :
    phrasesFrom stop stage (token :: rest) = phrasesFrom stop after rest := by
  have hk : token.kind ≠ .semicolon := by
    intro hk
    rw [Stage.next?_eq_none (.inl hk)] at h
    exact absurd h (by simp)
  rw [phrasesFrom, h]
  split
  · next hs _ => exact absurd hs hk
  · rfl

/-- A token that cannot follow, and does not end the phrase either, is reported. -/
lemma phrasesFrom_cons_of_none (h : stage.next? token = none)
    (hs : token.kind = .semicolon → stage.phrase? = none) :
    phrasesFrom stop stage (token :: rest) = .error (.unexpectedToken token) := by
  rw [phrasesFrom, h]
  split
  · next hk hp =>
      rw [hs hk] at hp
      exact absurd hp (by simp)
  · rfl

/-- Tokens that complete a phrase make up that phrase. -/
lemma phrasesFrom_of_read? (h : stage.read? tokens = some phrase) :
    phrasesFrom stop stage tokens = .ok [phrase] := by
  induction tokens generalizing stage with
  | nil =>
      have hs : stage ≠ .start := by
        rintro rfl
        simp [Stage.start, Stage.read?, Stage.phrase?] at h
      rw [Stage.read?] at h
      rw [phrasesFrom_nil hs, h]
  | cons token rest ih =>
      cases hn : stage.next? token with
      | none => simp [Stage.read?_cons_of_none hn] at h
      | some after =>
          rw [Stage.read?_cons_of_next? hn] at h
          rw [phrasesFrom_cons_of_next? hn, ih h]

/-- Tokens that complete a phrase and a separator behind them make up that phrase, and the others
follow. -/
lemma phrasesFrom_append_semicolon (h : stage.read? tokens = some phrase) (p : Nat) :
    phrasesFrom stop stage (tokens ++ ⟨.semicolon, p⟩ :: rest) =
      (phrase :: ·) <$> phrasesFrom stop .start rest := by
  induction tokens generalizing stage with
  | nil => exact phrasesFrom_semicolon h p
  | cons token first ih =>
      cases hn : stage.next? token with
      | none => simp [Stage.read?_cons_of_none hn] at h
      | some after =>
          rw [Stage.read?_cons_of_next? hn] at h
          rw [List.cons_append, phrasesFrom_cons_of_next? hn, ih h]

/-- One more token either leads on to a stage, whatever follows it, or is rejected, whatever follows
it. -/
lemma phrasesFrom_cons_cases (stage : Stage) (token : Token) :
    (∃ (after : Stage) (grow : List Phrase → List Phrase), ∀ stop rest,
        phrasesFrom stop stage (token :: rest) = grow <$> phrasesFrom stop after rest)
      ∨ ∀ stop rest,
        phrasesFrom stop stage (token :: rest) = .error (.unexpectedToken token) := by
  cases hn : stage.next? token with
  | some after =>
      refine .inl ⟨after, id, fun stop rest => ?_⟩
      rw [phrasesFrom_cons_of_next? hn, id_map]
  | none =>
      by_cases hs : token.kind = .semicolon → stage.phrase? = none
      · exact .inr fun stop rest => phrasesFrom_cons_of_none hn hs
      · obtain ⟨hk, hp⟩ := Classical.not_imp.mp hs
        obtain ⟨phrase, hp⟩ := Option.ne_none_iff_exists'.mp hp
        obtain ⟨kind, p⟩ := token
        cases hk
        exact .inl ⟨.start, (phrase :: ·), fun stop rest => phrasesFrom_semicolon hp p⟩

/-- What cannot be read is rejected because of one token. -/
lemma phrasesFrom_error {rejection : Rejection}
    (h : phrasesFrom stop stage tokens = .error rejection) :
    ∃ token, rejection = .unexpectedToken token := by
  induction tokens generalizing stage with
  | nil =>
      by_cases hs : stage = .start
      · subst hs
        rw [phrasesFrom_start_nil] at h
        exact absurd h (by simp)
      · rw [phrasesFrom_nil hs] at h
        split at h
        · exact absurd h (by simp)
        · exact ⟨stop, (Except.error.inj h).symm⟩
  | cons token rest ih =>
      rcases phrasesFrom_cons_cases stage token with ⟨after, grow, hl⟩ | hr
      · rw [hl, map_eq_error_iff] at h
        exact ih h
      · rw [hr] at h
        exact ⟨token, (Except.error.inj h).symm⟩

/-- Phrases are read in one of three ways: there is nothing to read, there is one phrase up to the
end, or a separator stands behind the first phrase. -/
lemma phrasesFrom_cases (h : phrasesFrom stop stage tokens = .ok phrases) :
    (stage = .start ∧ tokens = [] ∧ phrases = [])
    ∨ (∃ phrase, stage.read? tokens = some phrase ∧ phrases = [phrase])
    ∨ ∃ first p rest phrase more, tokens = first ++ ⟨.semicolon, p⟩ :: rest
        ∧ stage.read? first = some phrase ∧ phrasesFrom stop .start rest = .ok more
        ∧ phrases = phrase :: more := by
  induction tokens generalizing stage with
  | nil =>
      by_cases hs : stage = .start
      · subst hs
        rw [phrasesFrom_start_nil, Except.ok.injEq] at h
        exact .inl ⟨rfl, rfl, h.symm⟩
      · rw [phrasesFrom_nil hs] at h
        cases hp : stage.phrase? with
        | none => simp [hp] at h
        | some phrase =>
            rw [hp, Except.ok.injEq] at h
            exact .inr (.inl ⟨phrase, hp, h.symm⟩)
  | cons token rest ih =>
      cases hn : stage.next? token with
      | some after =>
          rw [phrasesFrom_cons_of_next? hn] at h
          rcases ih h with ⟨hs, -⟩ | ⟨phrase, hp, rfl⟩ |
            ⟨first, p, last, phrase, more, rfl, hp, hm, rfl⟩
          · exact absurd hs (Stage.next?_ne_start hn)
          · exact .inr (.inl ⟨phrase, by rw [Stage.read?_cons_of_next? hn, hp], rfl⟩)
          · exact .inr (.inr ⟨token :: first, p, last, phrase, more, rfl,
              by rw [Stage.read?_cons_of_next? hn, hp], hm, rfl⟩)
      | none =>
          -- only a separator behind a complete phrase is left
          by_cases hk : token.kind = .semicolon
          · cases hp : stage.phrase? with
            | none =>
                rw [phrasesFrom_cons_of_none hn fun _ => hp] at h
                exact absurd h (by simp)
            | some phrase =>
                obtain ⟨kind, p⟩ := token
                cases hk
                rw [phrasesFrom_semicolon hp] at h
                obtain ⟨more, hm, rfl⟩ := map_eq_ok_iff.mp h
                exact .inr (.inr ⟨[], p, rest, phrase, more, rfl, hp, hm, rfl⟩)
          · rw [phrasesFrom_cons_of_none hn fun hs => absurd hs hk] at h
            exact absurd h (by simp)

/-! ### Phrases against the grammar -/

/-- The phrases that are read are spelled by the tokens. -/
lemma spellsPhrases_of_phrasesFrom (h : phrasesFrom stop .start tokens = .ok phrases) :
    SpellsPhrases tokens phrases := by
  induction phrases generalizing tokens with
  | nil =>
      rcases phrasesFrom_cases h with ⟨-, rfl, -⟩ | ⟨phrase, -, hp⟩ | ⟨_, _, _, _, _, _, _, _, hp⟩
      · exact .nil
      · exact absurd hp (by simp)
      · exact absurd hp (by simp)
  | cons phrase more ih =>
      obtain ⟨-, -, hp⟩ | ⟨phrase, hr, hp⟩ | ⟨first, p, rest, phrase, more, rfl, hr, hm, hp⟩ :=
        phrasesFrom_cases h
      · exact absurd hp (by simp)
      · obtain ⟨rfl, rfl⟩ := List.cons.inj hp
        exact .last (Stage.read?_start_iff.mp hr)
      · obtain ⟨rfl, rfl⟩ := List.cons.inj hp
        have hs := Stage.read?_start_iff.mp hr
        cases more with
        | cons next phrases => exact .cons p hs (ih hm)
        | nil =>
            -- behind the last separator there is nothing more
            rcases phrasesFrom_cases hm with ⟨-, rfl, -⟩ | ⟨_, -, hp⟩ | ⟨_, _, _, _, _, _, _, _, hp⟩
            · exact .lastSeparator p hs
            · exact absurd hp (by simp)
            · exact absurd hp (by simp)

lemma SpellsPhrase.ne_nil (h : SpellsPhrase tokens phrase) : tokens ≠ [] := by
  rintro rfl
  exact absurd (Stage.read?_start_iff.mpr h) (by simp [Stage.read?, Stage.start, Stage.phrase?])

lemma SpellsPhrase.kind_ne_semicolon (h : SpellsPhrase tokens phrase) :
    ∀ token ∈ tokens, token.kind ≠ .semicolon :=
  fun token ht => (Stage.kind_ne_of_read? (Stage.read?_start_iff.mpr h) token ht).1

/-- The tokens of phrases begin with those of the first one. -/
lemma SpellsPhrases.exists_append (h : SpellsPhrases tokens (phrase :: phrases)) :
    ∃ own more, tokens = own ++ more ∧ SpellsPhrase own phrase := by
  cases h with
  | last h => exact ⟨tokens, [], by rw [List.append_nil], h⟩
  | lastSeparator p h => exact ⟨_, _, rfl, h⟩
  | cons p h _ => exact ⟨_, _, rfl, h⟩

/-- The tokens of phrases do not begin with a separator. -/
lemma not_spellsPhrases_semicolon {p : Nat} :
    ¬ SpellsPhrases (⟨.semicolon, p⟩ :: rest) (phrase :: phrases) := by
  intro h
  obtain ⟨own, more, ht, ho⟩ := h.exists_append
  obtain ⟨first, own, rfl⟩ := List.exists_cons_of_ne_nil ho.ne_nil
  rw [List.cons_append] at ht
  obtain ⟨rfl, -⟩ := List.cons.inj ht
  exact ho.kind_ne_semicolon _ List.mem_cons_self rfl

/-- Phrases that the tokens spell are read, unless the tokens are a separator alone. -/
lemma phrasesFrom_of_spellsPhrases (h : SpellsPhrases tokens phrases)
    (hs : ∀ p, tokens ≠ [⟨.semicolon, p⟩]) : phrasesFrom stop .start tokens = .ok phrases := by
  induction h with
  | nil => exact phrasesFrom_start_nil
  | separator p => exact absurd rfl (hs p)
  | last h => exact phrasesFrom_of_read? (Stage.read?_start_iff.mpr h)
  | lastSeparator p h =>
      rw [phrasesFrom_append_semicolon (Stage.read?_start_iff.mpr h), phrasesFrom_start_nil]
      rfl
  | @cons _ more _ _ _ p h hm ih =>
      have hne : ∀ q, more ≠ [⟨.semicolon, q⟩] := by
        rintro q rfl
        exact not_spellsPhrases_semicolon hm
      rw [phrasesFrom_append_semicolon (Stage.read?_start_iff.mpr h), ih hne]
      rfl

end PhrasesFrom

/-- **Programs against the grammar**: the program of a list of tokens is the one that the tokens in
front of the end of the input spell. -/
lemma ofTokens_eq_ok_iff {tokens : List Token} {program : Program} :
    Program.ofTokens tokens = .ok program ↔
      SpellsPhrases (significant tokens) program.phrases := by
  obtain ⟨phrases⟩ := program
  unfold Program.ofTokens
  split
  · next p hb =>
      rw [hb, Except.ok.injEq, Program.mk.injEq]
      refine ⟨?_, ?_⟩
      · rintro rfl
        exact .separator p
      · intro h
        cases phrases with
        | nil => rfl
        | cons phrase more => exact absurd h not_spellsPhrases_semicolon
  · next hb =>
      have hs : ∀ p, significant tokens ≠ [⟨.semicolon, p⟩] := fun p h => hb p h
      refine ⟨?_, ?_⟩
      · intro h
        obtain ⟨read, hm, hp⟩ := map_eq_ok_iff.mp h
        rw [Program.mk.injEq] at hp
        exact hp ▸ spellsPhrases_of_phrasesFrom hm
      · intro h
        rw [phrasesFrom_of_spellsPhrases h hs]
        rfl

/-- Tokens that have no program are rejected where their phrases are read. -/
lemma phrasesFrom_of_ofTokens_error {tokens : List Token} {rejection : Rejection}
    (h : Program.ofTokens tokens = .error rejection) :
    phrasesFrom (stopToken tokens) .start (significant tokens) = .error rejection := by
  unfold Program.ofTokens at h
  split at h
  · exact absurd h (by simp)
  · exact map_eq_error_iff.mp h

/-- Tokens that have no program are rejected because of one of them. -/
lemma ofTokens_error {tokens : List Token} {rejection : Rejection}
    (h : Program.ofTokens tokens = .error rejection) :
    ∃ token, rejection = .unexpectedToken token :=
  phrasesFrom_error (phrasesFrom_of_ofTokens_error h)

/-- Tokens behind the end of the input are not looked at. -/
lemma ofTokens_append_end (body rest : List Token) {stop : Token} (h : stop.kind = .endOfInput) :
    Program.ofTokens (body ++ stop :: rest) = Program.ofTokens (body ++ [stop]) := by
  have hb : significant (body ++ stop :: rest) = significant (body ++ [stop]) := by
    simp [significant, List.takeWhile_append, h]
  have hs : stopToken (body ++ stop :: rest) = stopToken (body ++ [stop]) := by
    simp [stopToken, List.find?_append, h]
  rw [Program.ofTokens, hb, hs, Program.ofTokens]

end Reshape
