import Reshape.Proofs.Attempt
import Reshape.Proofs.Token.Legible
import Reshape.Token.Cursor

/-!
Reading tokens one by one.

* `next_of_lexemeIs`, `next_of_blanks` and `next_of_invalid`: what the next token is when blanks and
  a lexeme are in front, and when there are only blanks; and that there is none when the character
  behind the blanks begins no lexeme.
* `tokens_of_end`, `tokens_of_token` and `tokens_of_error`: the tokens from a place on, by the next
  one.
* `tokens_error`: splitting a text into tokens fails only at an invalid character.
-/

namespace Reshape

namespace Cursor

variable {c after : Cursor} {token : Token} {rejection : Rejection}

/-- Blanks in front are skipped up to the first other character. -/
lemma skipBlanks_append {offset : Nat} {blanks rest : List Char} (hb : ∀ d ∈ blanks, isBlank d)
    (hr : ∀ d ∈ rest.head?, isBlank d = false) :
    skipBlanks ⟨offset, blanks ++ rest⟩ = ⟨offset + blanks.length, rest⟩ := by
  rw [skipBlanks, (takeWhile_append_of_stop hb hr).1, advance, List.drop_left]

/-- The lexeme behind the blanks is the next token. -/
lemma next_of_lexemeIs {offset : Nat} {blanks text rest : List Char} {kind : Token.Kind}
    (hb : ∀ d ∈ blanks, isBlank d) (h : kind.LexemeIs text (text ++ rest)) :
    next ⟨offset, blanks ++ (text ++ rest)⟩ =
      (.ok ⟨kind, offset + blanks.length⟩, ⟨offset + blanks.length + text.length, rest⟩) := by
  obtain ⟨hl, first, more, rfl, hf, hk⟩ := h
  have hs : skipBlanks ⟨offset, blanks ++ (first :: more ++ rest)⟩ =
      ⟨offset + blanks.length, first :: more ++ rest⟩ :=
    skipBlanks_append hb (by simpa using hf)
  rw [List.cons_append] at hl hs ⊢
  simp only [next, hs, hl, hk, advance, List.length_cons, List.drop_succ_cons, List.drop_left]

/-- Behind the last lexeme there are only blanks, and then the end of the input. -/
lemma next_of_blanks {offset : Nat} {blanks : List Char} (hb : ∀ d ∈ blanks, isBlank d) :
    next ⟨offset, blanks⟩ =
      (.ok ⟨.endOfInput, offset + blanks.length⟩, ⟨offset + blanks.length, []⟩) := by
  have hs : skipBlanks ⟨offset, blanks ++ []⟩ = ⟨offset + blanks.length, []⟩ :=
    skipBlanks_append hb (by simp)
  rw [List.append_nil] at hs
  simp only [next, hs, lexeme]

/-- A character behind the blanks that begins no lexeme is reported. -/
lemma next_of_invalid {offset : Nat} {blanks own rest : List Char} {first : Char}
    (hb : ∀ d ∈ blanks, isBlank d) (hf : isBlank first = false)
    (hl : lexeme (first :: rest) = first :: own) (hk : lexemeKind? first own = none) :
    next ⟨offset, blanks ++ first :: rest⟩ =
      (.error (.invalidCharacter first (offset + blanks.length)),
        ⟨offset + blanks.length, first :: rest⟩) := by
  have hs : skipBlanks ⟨offset, blanks ++ first :: rest⟩ =
      ⟨offset + blanks.length, first :: rest⟩ :=
    skipBlanks_append hb (by simpa using hf)
  simp only [next, hs, hl, hk]

lemma tokens_of_error (h : c.next = (.error rejection, after)) : c.tokens = .error rejection := by
  rw [tokens]
  split
  · next h' => simp_all
  · next h' => simp_all

/-- The end of the input is the last token. -/
lemma tokens_of_end (h : c.next = (.ok token, after)) (hk : token.kind = .endOfInput) :
    c.tokens = .ok [token] := by
  rw [tokens]
  split
  · next h' => simp_all
  · next h' => simp_all

/-- Another token is followed by the tokens behind it. -/
lemma tokens_of_token (h : c.next = (.ok token, after)) (hk : token.kind ≠ .endOfInput) :
    c.tokens = (token :: ·) <$> after.tokens := by
  rw [tokens]
  split
  · next h' => simp_all
  · next h' => simp_all

/-- A token that cannot be read is an invalid character. -/
lemma next_error (h : c.next = (.error rejection, after)) :
    ∃ character position, rejection = .invalidCharacter character position := by
  simp only [next] at h
  split at h
  · simp at h
  · split at h
    · simp at h
    · simp only [Prod.mk.injEq, Except.error.injEq] at h
      exact ⟨_, _, h.1.symm⟩

/-- Splitting a text into tokens fails only at an invalid character. -/
lemma tokens_error (h : c.tokens = .error rejection) :
    ∃ character position, rejection = .invalidCharacter character position := by
  induction hn : c.rest.length using Nat.strong_induction_on generalizing c with
  | _ n ih =>
    subst hn
    cases hc : c.next with
    | mk outcome after =>
      cases outcome with
      | error reason =>
          rw [tokens_of_error hc, Except.error.injEq] at h
          exact h ▸ next_error hc
      | ok token =>
          by_cases hk : token.kind = .endOfInput
          · rw [tokens_of_end hc hk] at h
            exact absurd h (by simp)
          · rw [tokens_of_token hc hk, map_eq_error_iff] at h
            exact ih _ (length_rest_next_lt hc hk) h rfl

end Cursor

end Reshape
