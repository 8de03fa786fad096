import Mathlib.Data.List.TakeWhile
import Reshape.Proofs.Program.Reading

/-!
The arrangements of segments that are phrases of the language.

* `Phrase.IsArranged`: the segments of a phrase are arranged as its kind demands.
* `SpellsPhrase.isArranged` and `exists_spellsPhrase`: the arranged phrases are those that some
  tokens spell.
* `exists_ofTokens_iff`: the programs of token lists are those whose phrases are all arranged.
-/

namespace Reshape

/-- The segment is a name. -/
def Segment.IsName (segment : Segment) : Prop :=
  ∃ text, segment.form = .name text

/-- The segment may follow the map operator: it is a name or a property. -/
def Segment.IsStep (segment : Segment) : Prop :=
  segment.IsName ∨ ∃ text, segment.form = .property text

/-- The segment may end a path: it is the input or a property. -/
def Segment.IsSource (segment : Segment) : Prop :=
  segment.form = .input ∨ ∃ text, segment.form = .property text

/-- The segment is a constant under a key. -/
def Segment.IsConstant (segment : Segment) : Prop :=
  ∃ key value, segment.form = .constant key value

/-- The segments of the phrase are arranged as its kind demands. -/
inductive Phrase.IsArranged : Phrase → Prop where
  | path {lead : List Segment} {last : Segment} :
      (∀ s ∈ lead, s.IsName) → last.IsSource → (Phrase.path (lead ++ [last])).IsArranged
  | value {lead : List Segment} {last : Segment} :
      (∀ s ∈ lead, s.IsName) → last.IsConstant → (Phrase.value (lead ++ [last])).IsArranged
  | map {lead steps : List Segment} {first : Segment} :
      (∀ s ∈ lead, s.IsName) → first.form = .each → (∀ s ∈ steps, s.IsStep) →
      (Phrase.map lead (first :: steps)).IsArranged

/-- An arranged path and an arranged value phrase have a last segment. -/
lemma ne_nil_of_isArranged {segments : List Segment}
    (h : (Phrase.path segments).IsArranged ∨ (Phrase.value segments).IsArranged) :
    segments ≠ [] := by
  rcases h with h | h
  · cases h
    exact List.append_ne_nil_of_right_ne_nil _ (List.cons_ne_nil _ [])
  · cases h
    exact List.append_ne_nil_of_right_ne_nil _ (List.cons_ne_nil _ [])

lemma isArranged_path_concat_iff {lead : List Segment} {last : Segment} :
    (Phrase.path (lead ++ [last])).IsArranged ↔ (∀ s ∈ lead, s.IsName) ∧ last.IsSource := by
  refine ⟨?_, ?_⟩
  · intro h
    generalize hc : lead ++ [last] = segments at h
    cases h with
    | path hl hs =>
        obtain ⟨rfl, rfl⟩ := List.append_singleton_inj.mp hc
        exact ⟨hl, hs⟩
  · rintro ⟨hl, hs⟩
    exact .path hl hs

lemma isArranged_value_concat_iff {lead : List Segment} {last : Segment} :
    (Phrase.value (lead ++ [last])).IsArranged ↔ (∀ s ∈ lead, s.IsName) ∧ last.IsConstant := by
  refine ⟨?_, ?_⟩
  · intro h
    generalize hc : lead ++ [last] = segments at h
    cases h with
    | value hl hs =>
        obtain ⟨rfl, rfl⟩ := List.append_singleton_inj.mp hc
        exact ⟨hl, hs⟩
  · rintro ⟨hl, hs⟩
    exact .value hl hs

lemma isArranged_map_cons_iff {lead steps : List Segment} {first : Segment} :
    (Phrase.map lead (first :: steps)).IsArranged ↔
      (∀ s ∈ lead, s.IsName) ∧ first.form = .each ∧ ∀ s ∈ steps, s.IsStep := by
  refine ⟨?_, ?_⟩
  · rintro ⟨⟩
    exact ⟨‹_›, ‹_›, ‹_›⟩
  · rintro ⟨hl, hf, hs⟩
    exact .map hl hf hs

/-- The names in front of a map and its segments are arranged apart from each other. -/
lemma isArranged_map_iff {lead segments : List Segment} :
    (Phrase.map lead segments).IsArranged ↔
      (∀ s ∈ lead, s.IsName) ∧ (Phrase.map [] segments).IsArranged := by
  cases segments with
  | nil =>
      refine ⟨?_, ?_⟩
      · rintro ⟨⟩
      · rintro ⟨-, ⟨⟩⟩
  | cons first steps => simp [isArranged_map_cons_iff]

/-! ### What is spelled is arranged -/

lemma SpellsLead.isName {tokens : List Token} {lead : List Segment} (h : SpellsLead tokens lead) :
    ∀ s ∈ lead, s.IsName := by
  induction h with
  | nil => simp
  | cons text p q _ ih => exact List.forall_mem_cons.mpr ⟨⟨text, rfl⟩, ih⟩

lemma SpellsSteps.isStep {tokens : List Token} {steps : List Segment}
    (h : SpellsSteps tokens steps) : ∀ s ∈ steps, s.IsStep := by
  induction h with
  | nil => simp
  | name text p _ ih => exact List.forall_mem_cons.mpr ⟨.inl ⟨text, rfl⟩, ih⟩
  | dotName text p q _ ih => exact List.forall_mem_cons.mpr ⟨.inl ⟨text, rfl⟩, ih⟩
  | property text p q _ ih => exact List.forall_mem_cons.mpr ⟨.inr ⟨text, rfl⟩, ih⟩
  | dotProperty text p q r _ ih => exact List.forall_mem_cons.mpr ⟨.inr ⟨text, rfl⟩, ih⟩

/-- A phrase that some tokens spell is arranged. -/
lemma SpellsPhrase.isArranged {tokens : List Token} {phrase : Phrase}
    (h : SpellsPhrase tokens phrase) : phrase.IsArranged := by
  cases h with
  | input p hl => exact .path hl.isName (.inl rfl)
  | property text p q hl => exact .path hl.isName (.inr ⟨text, rfl⟩)
  | number key value p q r hl => exact .value hl.isName ⟨key, .number value, rfl⟩
  | word key text p q r hl => exact .value hl.isName ⟨key, .word text, rfl⟩
  | map p q hl hs => exact .map hl.isName rfl hs.isStep

lemma SpellsPhrases.isArranged {tokens : List Token} {phrases : List Phrase}
    (h : SpellsPhrases tokens phrases) : ∀ phrase ∈ phrases, phrase.IsArranged := by
  induction h with
  | nil => simp
  | separator p => simp
  | last h => simpa using h.isArranged
  | lastSeparator p h => simpa using h.isArranged
  | cons p h _ ih => exact List.forall_mem_cons.mpr ⟨h.isArranged, ih⟩

/-! ### What is arranged is spelled -/

/-- No token is the end of the input. -/
def HasNoEnd (tokens : List Token) : Prop :=
  ∀ token ∈ tokens, token.kind ≠ .endOfInput

lemma significant_append {tokens : List Token} (h : HasNoEnd tokens) (more : List Token) :
    significant (tokens ++ more) = tokens ++ significant more :=
  List.takeWhile_append_of_pos fun token ht => decide_eq_true (h token ht)

lemma significant_eq_self {tokens : List Token} (h : HasNoEnd tokens) :
    significant tokens = tokens := by
  simpa [significant] using significant_append h []

/-- The tokens in front of the end of the input are the significant ones. -/
lemma significant_append_end {tokens : List Token} {stop : Token} (h : HasNoEnd tokens)
    (hs : stop.kind = .endOfInput) :
    significant (tokens ++ [stop]) = tokens := by
  rw [significant_append h, significant, List.takeWhile_cons_of_neg (by simpa using hs),
    List.append_nil]

lemma hasNoEnd_significant (tokens : List Token) : HasNoEnd (significant tokens) := by
  intro token ht
  have hk := List.mem_takeWhile_imp ht
  simpa using hk

lemma kind_stopToken (tokens : List Token) : (stopToken tokens).kind = .endOfInput := by
  unfold stopToken
  split
  · next stop hf => simpa using List.find?_some hf
  · rfl

lemma HasNoEnd.append {tokens more : List Token} (h : HasNoEnd tokens) (hm : HasNoEnd more) :
    HasNoEnd (tokens ++ more) :=
  List.forall_mem_append.mpr ⟨h, hm⟩

lemma hasNoEnd_of_read? {stage : Stage} {tokens : List Token} {phrase : Phrase}
    (h : stage.read? tokens = some phrase) : HasNoEnd tokens :=
  fun token ht => (Stage.kind_ne_of_read? h token ht).2

lemma SpellsPhrase.hasNoEnd {tokens : List Token} {phrase : Phrase}
    (h : SpellsPhrase tokens phrase) : HasNoEnd tokens :=
  hasNoEnd_of_read? (Stage.read?_start_iff.mpr h)

lemma SpellsPhrases.hasNoEnd {tokens : List Token} {phrases : List Phrase}
    (h : SpellsPhrases tokens phrases) : HasNoEnd tokens := by
  induction h with
  | nil => simp [HasNoEnd]
  | separator p => simp [HasNoEnd]
  | last h => exact h.hasNoEnd
  | lastSeparator p h => exact h.hasNoEnd.append (by simp [HasNoEnd])
  | cons p h _ ih => exact h.hasNoEnd.append (by simpa [HasNoEnd] using ih)

lemma exists_spellsLead {lead : List Segment} (h : ∀ s ∈ lead, s.IsName) :
    ∃ tokens, SpellsLead tokens lead := by
  induction lead with
  | nil => exact ⟨[], .nil⟩
  | cons first rest ih =>
      obtain ⟨⟨text, hf⟩, hr⟩ := List.forall_mem_cons.mp h
      obtain ⟨tokens, ht⟩ := ih hr
      obtain ⟨form, p⟩ := first
      cases hf
      exact ⟨_, ht.cons text p 0⟩

lemma exists_spellsSteps {steps : List Segment} (h : ∀ s ∈ steps, s.IsStep) :
    ∃ tokens, SpellsSteps tokens steps := by
  induction steps with
  | nil => exact ⟨[], .nil⟩
  | cons first rest ih =>
      obtain ⟨hf, hr⟩ := List.forall_mem_cons.mp h
      obtain ⟨tokens, ht⟩ := ih hr
      obtain ⟨form, p⟩ := first
      rcases hf with ⟨text, hf⟩ | ⟨text, hf⟩
      · cases hf
        exact ⟨_, ht.name text p⟩
      · cases hf
        exact ⟨_, ht.property text p 0⟩

/-- An arranged phrase is spelled by some tokens. -/
lemma exists_spellsPhrase {phrase : Phrase} (h : phrase.IsArranged) :
    ∃ tokens, SpellsPhrase tokens phrase := by
  cases h with
  | @path lead last hn hs =>
      obtain ⟨tokens, ht⟩ := exists_spellsLead hn
      obtain ⟨form, p⟩ := last
      rcases hs with hs | ⟨text, hs⟩
      · cases hs
        exact ⟨_, .input p ht⟩
      · cases hs
        exact ⟨_, .property text p 0 ht⟩
  | @value lead last hn hc =>
      obtain ⟨tokens, ht⟩ := exists_spellsLead hn
      obtain ⟨form, p⟩ := last
      obtain ⟨key, value, hc⟩ := hc
      cases hc
      cases value with
      | number value => exact ⟨_, .number key value p 0 0 ht⟩
      | word text => exact ⟨_, .word key text p 0 0 ht⟩
  | @map lead steps first hn hf hs =>
      obtain ⟨tokens, ht⟩ := exists_spellsLead hn
      obtain ⟨more, hm⟩ := exists_spellsSteps hs
      obtain ⟨form, p⟩ := first
      cases hf
      exact ⟨_, .map p 0 ht hm⟩

lemma exists_spellsPhrases {phrases : List Phrase} (h : ∀ phrase ∈ phrases, phrase.IsArranged) :
    ∃ tokens, SpellsPhrases tokens phrases := by
  induction phrases with
  | nil => exact ⟨[], .nil⟩
  | cons phrase rest ih =>
      obtain ⟨hp, hr⟩ := List.forall_mem_cons.mp h
      obtain ⟨tokens, ht⟩ := exists_spellsPhrase hp
      cases rest with
      | nil => exact ⟨_, .last ht⟩
      | cons next more =>
          obtain ⟨others, ho⟩ := ih hr
          exact ⟨_, .cons 0 ht ho⟩

/-- **The programs of token lists** are those whose phrases are all arranged. -/
lemma exists_ofTokens_iff {program : Program} :
    (∃ tokens, Program.ofTokens tokens = .ok program) ↔
      ∀ phrase ∈ program.phrases, phrase.IsArranged := by
  refine ⟨?_, ?_⟩
  · rintro ⟨tokens, h⟩
    exact (ofTokens_eq_ok_iff.mp h).isArranged
  · intro h
    obtain ⟨tokens, ht⟩ := exists_spellsPhrases h
    refine ⟨tokens, ofTokens_eq_ok_iff.mpr ?_⟩
    rwa [significant_eq_self ht.hasNoEnd]

end Reshape
