import Reshape.Plan.OfText
import Reshape.Proofs.Program.Grammar
import Reshape.Proofs.Program.Layout
import Reshape.Proofs.Token.Join

/-!
The programs of two texts with a separator between them.

* `Segment.shift` and `Phrase.shift`: segments and phrases further on in a text.
* `spellsPhrases_shift_iff`: tokens further on spell the same phrases further on.
* `spellsPhrases_join_iff`: tokens around a separator spell the phrases of one side and then those
  of the other one.
* `ofText_eq_ok_iff`: the program of a text is spelled by its tokens in front of the end.
* `ofText_join_iff`: the same for texts.
-/

namespace Reshape

/-! ### Phrases further on in a text -/

/-- A segment further on in the text. -/
def Segment.shift (count : Nat) (segment : Segment) : Segment :=
  ⟨segment.form, segment.position + count⟩

/-- A phrase further on in the text: all of its segments are. -/
def Phrase.shift (count : Nat) : Phrase → Phrase
  | .path segments => .path (segments.map (Segment.shift count))
  | .value segments => .value (segments.map (Segment.shift count))
  | .map lead segments => .map (lead.map (Segment.shift count)) (segments.map (Segment.shift count))

variable {tokens body rest : List Token} {phrase : Phrase} {phrases before after : List Phrase}

lemma SpellsLead.shift {lead : List Segment} (h : SpellsLead tokens lead) (count : Nat) :
    SpellsLead (tokens.map (Token.shift count)) (lead.map (Segment.shift count)) := by
  induction h with
  | nil => exact .nil
  | cons text p q _ ih => exact ih.cons text (p + count) (q + count)

lemma SpellsSteps.shift {steps : List Segment} (h : SpellsSteps tokens steps) (count : Nat) :
    SpellsSteps (tokens.map (Token.shift count)) (steps.map (Segment.shift count)) := by
  induction h with
  | nil => exact .nil
  | name text p _ ih => exact ih.name text (p + count)
  | dotName text p q _ ih => exact ih.dotName text (p + count) (q + count)
  | property text p q _ ih => exact ih.property text (p + count) (q + count)
  | dotProperty text p q r _ ih =>
      exact ih.dotProperty text (p + count) (q + count) (r + count)

lemma SpellsPhrase.shift (h : SpellsPhrase tokens phrase) (count : Nat) :
    SpellsPhrase (tokens.map (Token.shift count)) (phrase.shift count) := by
  cases h with
  | input p hl =>
      rw [List.map_append, Phrase.shift, List.map_append]
      exact .input (p + count) (hl.shift count)
  | property text p q hl =>
      rw [List.map_append, Phrase.shift, List.map_append]
      exact .property text (p + count) (q + count) (hl.shift count)
  | number key value p q r hl =>
      rw [List.map_append, Phrase.shift, List.map_append]
      exact .number key value (p + count) (q + count) (r + count) (hl.shift count)
  | word key text p q r hl =>
      rw [List.map_append, Phrase.shift, List.map_append]
      exact .word key text (p + count) (q + count) (r + count) (hl.shift count)
  | map p q hl hs =>
      rw [List.map_append]
      exact .map (p + count) (q + count) (hl.shift count) (hs.shift count)

lemma SpellsPhrases.shift (h : SpellsPhrases tokens phrases) (count : Nat) :
    SpellsPhrases (tokens.map (Token.shift count)) (phrases.map (Phrase.shift count)) := by
  induction h with
  | nil => exact .nil
  | separator p => exact .separator (p + count)
  | last h => exact .last (h.shift count)
  | lastSeparator p h =>
      rw [List.map_append]
      exact .lastSeparator (p + count) (h.shift count)
  | cons p h _ ih =>
      rw [List.map_append]
      exact .cons (p + count) (h.shift count) ih

/-- Tokens spell one list of phrases only. -/
lemma SpellsPhrases.eq (h : SpellsPhrases tokens before) (ho : SpellsPhrases tokens after) :
    before = after := by
  have hp : ∀ {phrases}, SpellsPhrases tokens phrases → Program.ofTokens tokens = .ok ⟨phrases⟩ :=
    fun hs => ofTokens_eq_ok_iff.mpr (by rwa [significant_eq_self hs.hasNoEnd])
  exact congrArg Program.phrases (Except.ok.inj ((hp h).symm.trans (hp ho)))

/-- Tokens further on spell the same phrases further on. -/
lemma spellsPhrases_shift_iff {count : Nat} :
    SpellsPhrases (tokens.map (Token.shift count)) phrases ↔
      ∃ own, SpellsPhrases tokens own ∧ phrases = own.map (Phrase.shift count) := by
  refine ⟨fun h => ?_, ?_⟩
  · -- whether tokens spell phrases depends on their kinds only
    have hk := Grammar.mem_program_iff.mpr ⟨phrases, h⟩
    rw [List.map_map] at hk
    obtain ⟨own, ho⟩ := Grammar.mem_program_iff.mp hk
    exact ⟨own, ho, h.eq (ho.shift count)⟩
  · rintro ⟨own, ho, rfl⟩
    exact ho.shift count

/-! ### Phrases around a separator -/

lemma SpellsPhrases.ne_nil (h : SpellsPhrases tokens phrases) (hne : phrases ≠ []) :
    tokens ≠ [] := by
  obtain ⟨phrase, phrases, rfl⟩ := List.exists_cons_of_ne_nil hne
  obtain ⟨own, more, rfl, ho⟩ := h.exists_append
  exact List.append_ne_nil_of_left_ne_nil ho.ne_nil more

/-- The last token is a separator. -/
def EndsInSeparator (tokens : List Token) : Prop :=
  (tokens.map Token.kind).getLast? = some .semicolon

lemma endsInSeparator_append_cons {token : Token} (hne : rest ≠ []) :
    EndsInSeparator (tokens ++ token :: rest) ↔ EndsInSeparator rest := by
  rw [EndsInSeparator, List.append_cons, List.map_append,
    List.getLast?_append_of_ne_nil _ (by simpa using hne), EndsInSeparator]

lemma SpellsPhrase.not_endsInSeparator (h : SpellsPhrase tokens phrase) :
    ¬ EndsInSeparator tokens := by
  intro hs
  obtain ⟨token, ht, hk⟩ := List.mem_map.mp (List.mem_of_getLast? hs)
  exact h.kind_ne_semicolon token ht hk

/-- The first of two decompositions of a list ends in front of the second one, or where it ends. -/
lemma append_cons_cases {α : Type} {first second more others : List α} {c d : α}
    (h : first ++ c :: more = second ++ d :: others) (hd : d ∉ first) :
    (second = first ∧ others = more)
      ∨ ∃ between, second = first ++ c :: between ∧ more = between ++ d :: others := by
  rcases List.append_eq_append_iff.mp h with ⟨between, rfl, hm⟩ | ⟨between, rfl, ho⟩
  · cases between with
    | nil => exact .inl ⟨List.append_nil first, (List.cons.inj hm).2.symm⟩
    | cons x between =>
        obtain ⟨rfl, rfl⟩ := List.cons.inj hm
        exact .inr ⟨between, rfl, rfl⟩
  · cases between with
    | nil => exact .inl ⟨(List.append_nil second).symm, (List.cons.inj ho).2⟩
    | cons x between =>
        obtain ⟨rfl, -⟩ := List.cons.inj ho
        exact absurd (by simp) hd

/-- Phrases behind a separator follow the phrases in front of it. -/
lemma SpellsPhrases.join (h : SpellsPhrases body before) (hb : before ≠ [])
    (he : ¬ EndsInSeparator body) (hs : SpellsPhrases rest after) (ha : after ≠ []) (p : Nat) :
    SpellsPhrases (body ++ ⟨.semicolon, p⟩ :: rest) (before ++ after) := by
  induction h with
  | nil => exact absurd rfl hb
  | separator q => exact absurd rfl hb
  | last h =>
      obtain ⟨next, more, rfl⟩ := List.exists_cons_of_ne_nil ha
      exact .cons p h hs
  | lastSeparator q h => exact absurd (by simp [EndsInSeparator]) he
  | cons q h hm ih =>
      rw [endsInSeparator_append_cons (hm.ne_nil (by simp))] at he
      rw [List.append_assoc, List.cons_append]
      exact .cons q h (ih (by simp) he)

/-- Phrases of tokens with a separator among them are those in front of it and those behind it. -/
lemma SpellsPhrases.split {p : Nat} (h : SpellsPhrases tokens phrases)
    (ht : tokens = body ++ ⟨.semicolon, p⟩ :: rest) (hb : body ≠ []) (hr : rest ≠ []) :
    ∃ before after, SpellsPhrases body before ∧ SpellsPhrases rest after ∧ before ≠ []
      ∧ after ≠ [] ∧ ¬ EndsInSeparator body ∧ phrases = before ++ after := by
  have hnot : ∀ {own : List Token} {phrase : Phrase}, SpellsPhrase own phrase →
      (⟨.semicolon, p⟩ : Token) ∉ own := fun ho hm => ho.kind_ne_semicolon _ hm rfl
  induction h generalizing body with
  | nil => exact absurd ht (by simp)
  | separator q =>
      obtain ⟨first, body, rfl⟩ := List.exists_cons_of_ne_nil hb
      exact absurd ht (by simp)
  | last h => exact absurd (by simp [ht]) (hnot h)
  | lastSeparator q h =>
      rcases append_cons_cases ht (hnot h) with ⟨-, rfl⟩ | ⟨between, -, hm⟩
      · exact absurd rfl hr
      · exact absurd hm (by simp)
  | @cons own more phrase next phrases q h hm ih =>
      rcases append_cons_cases ht (hnot h) with ⟨rfl, rfl⟩ | ⟨between, rfl, rfl⟩
      · exact ⟨[phrase], next :: phrases, .last h, hm, by simp, by simp, h.not_endsInSeparator, rfl⟩
      · have hne : between ≠ [] := by
          rintro rfl
          exact not_spellsPhrases_semicolon hm
        obtain ⟨before, after, hbefore, hafter, hbn, han, he, hp⟩ := ih rfl hne
        obtain ⟨first, before, rfl⟩ := List.exists_cons_of_ne_nil hbn
        exact ⟨phrase :: first :: before, after, .cons q h hbefore, hafter, by simp, han,
          (endsInSeparator_append_cons hne).not.mpr he, congrArg (phrase :: ·) hp⟩

/-- **Tokens around a separator** spell the phrases of one side and then those of the other one. -/
lemma spellsPhrases_join_iff {p : Nat} (hb : body ≠ []) (hr : rest ≠ []) :
    SpellsPhrases (body ++ ⟨.semicolon, p⟩ :: rest) phrases ↔
      ∃ before after, SpellsPhrases body before ∧ SpellsPhrases rest after ∧ before ≠ []
        ∧ after ≠ [] ∧ ¬ EndsInSeparator body ∧ phrases = before ++ after := by
  refine ⟨fun h => h.split rfl hb hr, ?_⟩
  rintro ⟨before, after, hbefore, hafter, hbn, han, he, rfl⟩
  exact hbefore.join hbn he hafter han p

/-! ### Programs of texts -/

/-- The program of a text is spelled by its tokens in front of the end of the input. -/
lemma ofText_eq_ok_iff {text : String} {program : Program} :
    Program.ofText text = .ok program ↔
      ∃ body, Token.IsBody text body ∧ SpellsPhrases body program.phrases := by
  rw [Program.ofText, bind_eq_ok_iff]
  refine ⟨?_, ?_⟩
  · rintro ⟨tokens, ht, hp⟩
    obtain ⟨body, rfl, hb⟩ := exists_eq_concat_of_ofText ht
    rw [ofTokens_eq_ok_iff, significant_append_end (fun token hm => (hb token hm).1) rfl] at hp
    exact ⟨body, ht, hp⟩
  · rintro ⟨body, ht, hp⟩
    refine ⟨_, ht, ?_⟩
    rwa [ofTokens_eq_ok_iff, significant_append_end hp.hasNoEnd rfl]

/-- **Texts with a separator between them.** Where neither of two texts is blank, the text with a
separator between them has a program exactly if both texts have programs that are not empty and the
last character of the first text that is no blank is no separator. The phrases are those of the
first text and then those of the second one, whose segments stand behind the first text and the
separator. -/
theorem ofText_join_iff {first second : String} (hf : ∃ c ∈ first.toList, isBlank c = false)
    (hs : ∃ c ∈ second.toList, isBlank c = false) (program : Program) :
    Program.ofText (first ++ ";" ++ second) = .ok program ↔
      ∃ p q, Program.ofText first = .ok p ∧ Program.ofText second = .ok q ∧ p.phrases ≠ []
        ∧ q.phrases ≠ [] ∧ (first.toList.filter (!isBlank ·)).getLast? ≠ some ';'
        ∧ program.phrases = p.phrases ++ q.phrases.map (Phrase.shift (first.length + 1)) := by
  simp only [ofText_eq_ok_iff]
  refine ⟨?_, ?_⟩
  · rintro ⟨tokens, ht, hp⟩
    obtain ⟨body, more, hb, hm, rfl⟩ := isBody_join_iff.mp ht
    have hr : more.map (Token.shift (first.length + 1)) ≠ [] := by simpa using body_ne_nil hm hs
    obtain ⟨before, _, hbefore, hafter, hbn, han, he, hp⟩ :=
      (spellsPhrases_join_iff (body_ne_nil hb hf) hr).mp hp
    obtain ⟨own, ho, rfl⟩ := spellsPhrases_shift_iff.mp hafter
    exact ⟨⟨before⟩, ⟨own⟩, ⟨body, hb, hbefore⟩, ⟨more, hm, ho⟩, hbn, by simpa using han,
      (getLast?_eq_semicolon_iff hb).not.mpr he, hp⟩
  · rintro ⟨p, q, ⟨body, hb, hbefore⟩, ⟨more, hm, ho⟩, hbn, han, he, hp⟩
    refine ⟨_, isBody_join_iff.mpr ⟨body, more, hb, hm, rfl⟩, ?_⟩
    rw [hp]
    exact hbefore.join hbn ((getLast?_eq_semicolon_iff hb).not.mp he)
      (ho.shift (first.length + 1)) (by simpa using han) first.length

/-- A text whose last phrase goes without a separator at its end, and one whose last phrase has
one. -/
theorem ofText_join_two :
    (∃ c ∈ "a:1; $".toList, isBlank c = false) ∧ (∃ c ∈ "$>#x ;".toList, isBlank c = false)
    ∧ Program.ofText ("a:1; $" ++ ";" ++ "$>#x ;") =
      .ok ⟨[.value [⟨.constant "a" (.number (.integer 1)), 0⟩], .path [⟨.input, 5⟩],
        .map [] [⟨.each, 7⟩, ⟨.property "x", 9⟩]]⟩ := by
  have hf : ∃ c ∈ "a:1; $".toList, isBlank c = false := ⟨'$', by decide, by decide⟩
  have hs : ∃ c ∈ "$>#x ;".toList, isBlank c = false := ⟨'$', by decide, by decide⟩
  have hp : Program.ofText "a:1; $" =
      .ok ⟨[.value [⟨.constant "a" (.number (.integer 1)), 0⟩], .path [⟨.input, 5⟩]]⟩ :=
    toOption_eq_some_iff.mp (by decide +kernel)
  have hq : Program.ofText "$>#x ;" = .ok ⟨[.map [] [⟨.each, 0⟩, ⟨.property "x", 2⟩]]⟩ :=
    toOption_eq_some_iff.mp (by decide +kernel)
  exact ⟨hf, hs, (ofText_join_iff hf hs _).mpr
    ⟨_, _, hp, hq, by decide, by decide, by decide, by decide⟩⟩

end Reshape
