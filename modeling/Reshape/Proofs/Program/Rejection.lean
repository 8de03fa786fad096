import Reshape.Proofs.Plan.Domain
import Reshape.Proofs.Token.Cut

/-!
A rejection points at the first token that cannot be continued.

* `Stage.exists_completion`: from every stage some tokens lead to the end of a phrase.
* `Stage.CanFinish`: some tokens go on from the given ones to the end of the phrases.
* `phrasesFrom_error_cases`: the tokens in front of the one that is reported can finish, and with
  that one they cannot.
* `BeginsProgram`: some tokens go on from the given ones to a program.
* `rejection_at_first_fault`: the same for programs, and where in a phrase text a rejection points.
-/

namespace Reshape

variable {tokens : List Token} {rejection : Rejection}

/-! ### No stage is a dead end -/

namespace Stage

/-- From every stage some tokens lead to the end of a phrase. -/
lemma exists_completion (stage : Stage) : ∃ more phrase, stage.read? more = some phrase := by
  cases stage with
  | step lead => exact ⟨[⟨.dollar, 0⟩], _, rfl⟩
  | name lead text p => exact ⟨[⟨.dot, 0⟩, ⟨.dollar, 0⟩], _, rfl⟩
  | property lead p => exact ⟨[⟨.identifier "", 0⟩], _, rfl⟩
  | constant lead key p => exact ⟨[⟨.identifier "", 0⟩], _, rfl⟩
  | dollar lead p => exact ⟨[], _, rfl⟩
  | complete phrase => exact ⟨[], _, rfl⟩
  | map lead segments => exact ⟨[], _, rfl⟩
  | mapStep lead segments => exact ⟨[⟨.identifier "", 0⟩], _, rfl⟩
  | mapProperty lead segments p => exact ⟨[⟨.identifier "", 0⟩], _, rfl⟩

/-- Some tokens go on from the given ones to the end of the phrases, when a phrase has reached the
stage. -/
def CanFinish (stage : Stage) (tokens : List Token) : Prop :=
  ∃ more phrases, HasNoEnd more ∧ ∀ stop, phrasesFrom stop stage (tokens ++ more) = .ok phrases

lemma canFinish_nil (stage : Stage) : stage.CanFinish [] := by
  obtain ⟨more, phrase, h⟩ := stage.exists_completion
  exact ⟨more, [phrase], hasNoEnd_of_read? h, fun stop => phrasesFrom_of_read? h⟩

/-- A token that leads on keeps the way to the end open. -/
lemma CanFinish.cons {stage after : Stage} {token : Token} {grow : List Phrase → List Phrase}
    (hl : ∀ stop rest,
      phrasesFrom stop stage (token :: rest) = grow <$> phrasesFrom stop after rest)
    (h : after.CanFinish tokens) : stage.CanFinish (token :: tokens) := by
  obtain ⟨more, phrases, hn, hm⟩ := h
  refine ⟨more, grow phrases, hn, fun stop => ?_⟩
  rw [List.cons_append, hl, hm]
  rfl

end Stage

/-! ### The token that is reported -/

/-- The tokens in front of the one that is reported can finish. When it is one of the tokens, then
together with it they cannot, whatever follows. -/
lemma phrasesFrom_error_cases {stop : Token} {stage : Stage}
    (h : phrasesFrom stop stage tokens = .error rejection) :
    (rejection = .unexpectedToken stop ∧ stage.CanFinish tokens)
      ∨ ∃ before token after, tokens = before ++ token :: after
        ∧ rejection = .unexpectedToken token ∧ stage.CanFinish before
        ∧ ∀ stop more phrases, phrasesFrom stop stage (before ++ token :: more) ≠ .ok phrases := by
  induction tokens generalizing stage with
  | nil =>
      refine .inl ⟨?_, stage.canFinish_nil⟩
      by_cases hs : stage = .start
      · subst hs
        rw [phrasesFrom_start_nil] at h
        exact absurd h (by simp)
      · rw [phrasesFrom_nil hs] at h
        split at h
        · exact absurd h (by simp)
        · exact (Except.error.inj h).symm
  | cons token rest ih =>
      rcases phrasesFrom_cons_cases stage token with ⟨next, grow, hl⟩ | hr
      · rw [hl, map_eq_error_iff] at h
        rcases ih h with ⟨hs, hf⟩ | ⟨before, fault, after, rfl, hs, hf, hn⟩
        · exact .inl ⟨hs, hf.cons hl⟩
        · refine .inr ⟨token :: before, fault, after, rfl, hs, hf.cons hl, ?_⟩
          intro stop more phrases hp
          rw [List.cons_append, hl] at hp
          obtain ⟨read, hm, -⟩ := map_eq_ok_iff.mp hp
          exact hn stop more read hm
      · refine .inr ⟨[], token, rest, rfl, ?_, stage.canFinish_nil, ?_⟩
        · rw [hr] at h
          exact (Except.error.inj h).symm
        · intro stop more phrases hp
          rw [List.nil_append, hr] at hp
          exact absurd hp (by simp)

/-! ### Programs -/

/-- Some tokens go on from the given ones to a program. -/
def BeginsProgram (tokens : List Token) : Prop :=
  ∃ more program, Program.ofTokens (tokens ++ more) = .ok program

lemma Stage.CanFinish.beginsProgram (hn : HasNoEnd tokens) (h : Stage.start.CanFinish tokens) :
    BeginsProgram tokens := by
  obtain ⟨more, phrases, hm, hp⟩ := h
  refine ⟨more, ⟨phrases⟩, ofTokens_eq_ok_iff.mpr ?_⟩
  rw [significant_eq_self (hn.append hm)]
  exact spellsPhrases_of_phrasesFrom (hp ⟨.endOfInput, 0⟩)

/-- Tokens that no further ones complete begin no program, unless they begin with a separator. -/
lemma not_beginsProgram {before : List Token} {token : Token} (hn : HasNoEnd (before ++ [token]))
    (hs : ∀ first ∈ (before ++ [token]).head?, first.kind ≠ .semicolon)
    (h : ∀ stop more phrases, phrasesFrom stop .start (before ++ token :: more) ≠ .ok phrases) :
    ¬ BeginsProgram (before ++ [token]) := by
  rintro ⟨more, program, hp⟩
  have hp := ofTokens_eq_ok_iff.mp hp
  rw [significant_append hn] at hp
  have hne : ∀ p, before ++ [token] ++ significant more ≠ [⟨.semicolon, p⟩] := by
    intro p he
    have hh : (before ++ [token]).head? = some ⟨.semicolon, p⟩ := by
      rw [← List.head?_append_of_ne_nil _ (List.append_ne_nil_of_right_ne_nil before
        (List.cons_ne_nil token [])), he]
      rfl
    exact hs _ hh rfl
  refine h ⟨.endOfInput, 0⟩ (significant more) program.phrases ?_
  rw [List.append_cons]
  exact phrasesFrom_of_spellsPhrases hp hne

/-- Among the tokens of a text, the end of the input is the one that stops them. -/
lemma stopToken_concat {stop : Token} (hn : HasNoEnd tokens) (hs : stop.kind = .endOfInput) :
    stopToken (tokens ++ [stop]) = stop := by
  have hf : tokens.find? (·.kind = .endOfInput) = none := by
    rw [List.find?_eq_none]
    exact fun token ht => by simpa using hn token ht
  simp [stopToken, List.find?_append, hf, hs]

/-- A phrase text is rejected inside, unless it is rejected because of its end. -/
lemma position_of_ofText_error {text : String} (h : Plan.ofText text = .error rejection) :
    rejection.position < text.length
        ∧ (∀ p, rejection ≠ .unexpectedToken ⟨.endOfInput, p⟩)
      ∨ rejection = .unexpectedToken ⟨.endOfInput, text.length⟩ := by
  rcases bind_eq_error_iff.mp h with h | ⟨program, hp, h⟩
  · rcases bind_eq_error_iff.mp h with h | ⟨tokens, ht, h⟩
    · rcases Piece.exists_isCut_or_invalid text.toList with
        ⟨pieces, hc, ht⟩ | ⟨before, c, after, hs, -, -, he⟩
      · have hp := Piece.tokens_texts hc 0
        rw [ht] at hp
        exact absurd (h.symm.trans hp) (by simp)
      · obtain rfl := Except.error.inj (h.symm.trans (he 0))
        have hl : text.length = before.length + (after.length + 1) := by
          rw [← String.length_toList, hs, List.length_append, List.length_cons]
        refine .inl ⟨?_, by simp⟩
        show 0 + before.length < text.length
        omega
    · obtain ⟨body, rfl, hb⟩ := exists_eq_concat_of_ofText ht
      have hn : HasNoEnd body := fun token hm => (hb token hm).1
      have hf := phrasesFrom_of_ofTokens_error h
      rw [significant_append_end hn rfl, stopToken_concat hn rfl] at hf
      rcases phrasesFrom_error_cases hf with ⟨hr, -⟩ | ⟨before, token, after, rfl, rfl, -⟩
      · exact .inr hr
      · obtain ⟨hk, hp⟩ := hb token (by simp)
        refine .inl ⟨hp, ?_⟩
        rintro p he
        rw [Rejection.unexpectedToken.injEq] at he
        exact hk (by rw [he])
  · obtain ⟨plan, hq⟩ := exists_plan_of_programOfText hp
    exact absurd (h.symm.trans hq) (by simp)

/-- **Rejections point at the first fault.** When tokens without an end of the input, of which the
first is no separator, have no program, then one of them or the end of the input behind them is
reported. The tokens in front of it begin a program, and if it is one of the tokens, then no
program begins with the tokens up to and with it. A separator in front of other tokens is reported
itself. A phrase text is never rejected behind its end, and at its end only because of the end. -/
theorem rejection_at_first_fault :
    (∀ tokens rejection, HasNoEnd tokens → (∀ first ∈ tokens.head?, first.kind ≠ .semicolon) →
      Program.ofTokens tokens = .error rejection →
      ∃ k token, k ≤ tokens.length ∧ (tokens ++ [stopToken tokens])[k]? = some token
        ∧ rejection = .unexpectedToken token
        ∧ rejection.message = "Unexpected token `" ++ token.kind.text ++ "` at position "
          ++ token.position.repr
        ∧ BeginsProgram (tokens.take k)
        ∧ (k < tokens.length → ¬ BeginsProgram (tokens.take (k + 1))))
    ∧ (∀ p next rest, next.kind ≠ .endOfInput →
      Program.ofTokens (⟨.semicolon, p⟩ :: next :: rest) =
        .error (.unexpectedToken ⟨.semicolon, p⟩))
    ∧ ∀ text rejection, Plan.ofText text = .error rejection →
      rejection.position ≤ text.length
        ∧ (rejection.position = text.length ↔
          ∃ p, rejection = .unexpectedToken ⟨.endOfInput, p⟩) := by
  refine ⟨?_, ?_, ?_⟩
  · intro tokens rejection hn hs h
    have hf := phrasesFrom_of_ofTokens_error h
    rw [significant_eq_self hn] at hf
    rcases phrasesFrom_error_cases hf with ⟨rfl, hc⟩ | ⟨before, token, after, rfl, rfl, hc, hp⟩
    · refine ⟨tokens.length, stopToken tokens, le_rfl, by simp, rfl, rfl, ?_,
        fun hlt => absurd hlt (lt_irrefl _)⟩
      rw [List.take_length]
      exact hc.beginsProgram hn
    · obtain ⟨hnb, hnt⟩ := List.forall_mem_append.mp hn
      refine ⟨before.length, token, by simp, by simp, rfl, rfl, ?_, fun _ => ?_⟩
      · rw [List.take_left]
        exact hc.beginsProgram hnb
      · rw [List.append_cons, List.take_left' (by simp)]
        refine not_beginsProgram ?_ ?_ hp
        · exact HasNoEnd.append hnb fun t ht => hnt t (by simp_all)
        · intro first hh
          refine hs first ?_
          rw [List.append_cons, List.head?_append_of_ne_nil _ (by simp)]
          exact hh
  · intro p next rest hk
    have hsig : significant (⟨.semicolon, p⟩ :: next :: rest) =
        ⟨.semicolon, p⟩ :: next :: significant rest := by
      simp [significant, hk]
    have hfault : ∀ stop more, phrasesFrom stop .start (⟨.semicolon, p⟩ :: more) =
        .error (.unexpectedToken ⟨.semicolon, p⟩) := fun stop more =>
      phrasesFrom_cons_of_none (by rfl) fun _ => rfl
    unfold Program.ofTokens
    rw [hsig]
    simp [hfault]
  · intro text rejection h
    rcases position_of_ofText_error h with ⟨hlt, hne⟩ | rfl
    · refine ⟨hlt.le, ?_⟩
      refine ⟨fun he => absurd he hlt.ne, ?_⟩
      rintro ⟨p, he⟩
      exact absurd he (hne p)
    · exact ⟨le_rfl, fun _ => ⟨_, rfl⟩, fun _ => rfl⟩

-- a separator may end a program, but a second one may not follow it
example : Program.ofTokens [⟨.dollar, 0⟩, ⟨.semicolon, 1⟩, ⟨.semicolon, 2⟩] =
    .error (.unexpectedToken ⟨.semicolon, 2⟩) := rfl

end Reshape
