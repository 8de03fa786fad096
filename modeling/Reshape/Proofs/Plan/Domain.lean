import Reshape.Plan.OfText
import Reshape.Proofs.Plan.Parts
import Reshape.Proofs.Token.Reading

/-!
Which programs have a plan.

* `programOfText_error`: a phrase text has no program because of a character or because of a token.
* `exists_plan_iff_exists_tokens`: a program has a plan exactly if it is the program of some tokens,
  so that no phrase text is rejected because of the arrangement of its segments.
-/

namespace Reshape

/-- A phrase text that has no program is rejected because of a character or a token. -/
lemma programOfText_error {text : String} {rejection : Rejection}
    (h : Program.ofText text = .error rejection) :
    (∃ character position, rejection = .invalidCharacter character position)
      ∨ ∃ token, rejection = .unexpectedToken token := by
  rcases bind_eq_error_iff.mp h with h | ⟨tokens, -, h⟩
  · exact .inl (Cursor.tokens_error h)
  · exact .inr (ofTokens_error h)

/-- The program of a phrase text has a plan. -/
lemma exists_plan_of_programOfText {text : String} {program : Program}
    (h : Program.ofText text = .ok program) : ∃ plan, Plan.ofProgram program = .ok plan := by
  obtain ⟨tokens, -, h⟩ := bind_eq_ok_iff.mp h
  exact ⟨_, ofProgram_eq_ok_iff.mpr ⟨exists_ofTokens_iff.mp ⟨tokens, h⟩, rfl⟩⟩

/-- **The domain of plans.** A program has a plan exactly if some list of tokens has this program,
with these places. So no phrase text is rejected as a phrase whose segments are out of place. -/
theorem exists_plan_iff_exists_tokens (program : Program) :
    ((∃ plan, Plan.ofProgram program = .ok plan)
      ↔ ∃ tokens, Program.ofTokens tokens = .ok program)
    ∧ ∀ text kind position fault,
        Plan.ofText text ≠ .error (.malformedPhrase kind position fault) := by
  refine ⟨?_, ?_⟩
  · rw [exists_ofTokens_iff]
    refine ⟨?_, ?_⟩
    · rintro ⟨plan, h⟩
      exact (ofProgram_eq_ok_iff.mp h).1
    · intro h
      exact ⟨program.plan, ofProgram_eq_ok_iff.mpr ⟨h, rfl⟩⟩
  · intro text kind position fault h
    rcases bind_eq_error_iff.mp h with h | ⟨read, hr, h⟩
    · rcases programOfText_error h with ⟨_, _, h⟩ | ⟨_, h⟩
      · exact absurd h (by simp)
      · exact absurd h (by simp)
    · obtain ⟨plan, hp⟩ := exists_plan_of_programOfText hr
      rw [hp] at h
      exact absurd h (by simp)

end Reshape
