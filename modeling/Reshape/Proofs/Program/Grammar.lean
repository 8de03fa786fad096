import Mathlib.Computability.Language
import Reshape.Proofs.Program.Reading

/-!
The grammar of programs as a language over kinds of tokens.

    program := (phrase (';' phrase)*)? ';'?
    phrase  := path | value | map
    path    := (NAME '.')* ('$' | '#' NAME)
    value   := (NAME '.')* NAME ':' (NUMBER | NAME)
    map     := (NAME '.')* '$' '>' ('.'? NAME | '.'? '#' NAME)*

* `Grammar.program`: the words of the grammar, written with union, concatenation and star.
* `mem_phrase_iff` and `mem_program_iff`: the words of the grammar are the kinds of the tokens that
  spell something.
* `ofTokens_iff_grammar`: a list of tokens has a program exactly if the kinds in front of the end of
  the input are a word of the grammar, and the program is the one that the tokens spell.
-/

namespace Reshape

open scoped Computability

namespace Grammar

/-- One token of a given kind. -/
def mark (kind : Token.Kind) : Language Token.Kind :=
  {[kind]}

/-- One name. -/
def name : Language Token.Kind :=
  {word | ∃ text, word = [.identifier text]}

/-- One number. -/
def number : Language Token.Kind :=
  {word | ∃ value, word = [.number value]}

/-- What may be left out. -/
def optional (l : Language Token.Kind) : Language Token.Kind :=
  1 + l

/-- Names with a point after each. -/
def lead : Language Token.Kind :=
  (name * mark .dot)∗

/-- The input or one of its properties. -/
def path : Language Token.Kind :=
  lead * (mark .dollar + mark .hash * name)

/-- A constant under a key. -/
def value : Language Token.Kind :=
  lead * name * mark .colon * (number + name)

/-- One step of a map, with a point in front of it or without one. -/
def mapStep : Language Token.Kind :=
  optional (mark .dot) * name + optional (mark .dot) * mark .hash * name

/-- The map operator and its steps. -/
def map : Language Token.Kind :=
  lead * mark .dollar * mark .arrow * mapStep∗

/-- A phrase of any kind. -/
def phrase : Language Token.Kind :=
  path + value + map

/-- Phrases with separators between them, and perhaps one at the end. -/
def program : Language Token.Kind :=
  optional (phrase * (mark .semicolon * phrase)∗) * optional (mark .semicolon)

/-! ### Tokens whose kinds are a word -/

variable {l m : Language Token.Kind} {tokens first rest : List Token} {kind : Token.Kind}

lemma mem_mul_iff :
    tokens.map Token.kind ∈ l * m ↔
      ∃ first rest, tokens = first ++ rest ∧ first.map Token.kind ∈ l
        ∧ rest.map Token.kind ∈ m := by
  rw [Language.mem_mul]
  refine ⟨?_, ?_⟩
  · rintro ⟨a, ha, b, hb, h⟩
    obtain ⟨first, rest, rfl, rfl, rfl⟩ := List.map_eq_append_iff.mp h.symm
    exact ⟨first, rest, rfl, ha, hb⟩
  · rintro ⟨first, rest, rfl, hf, hr⟩
    exact ⟨_, hf, _, hr, List.map_append.symm⟩

lemma append_mem_mul (hf : first.map Token.kind ∈ l) (hr : rest.map Token.kind ∈ m) :
    (first ++ rest).map Token.kind ∈ l * m :=
  mem_mul_iff.mpr ⟨first, rest, rfl, hf, hr⟩

lemma mem_mark_iff : tokens.map Token.kind ∈ mark kind ↔ ∃ p, tokens = [⟨kind, p⟩] := by
  refine ⟨?_, ?_⟩
  · intro h
    obtain ⟨⟨_, p⟩, rfl, rfl⟩ := List.map_eq_singleton_iff.mp (Set.mem_singleton_iff.mp h)
    exact ⟨p, rfl⟩
  · rintro ⟨p, rfl⟩
    exact Set.mem_singleton _

lemma mark_mem (kind : Token.Kind) (p : Nat) :
    [(⟨kind, p⟩ : Token)].map Token.kind ∈ mark kind :=
  mem_mark_iff.mpr ⟨p, rfl⟩

lemma mem_name_iff :
    tokens.map Token.kind ∈ name ↔ ∃ text p, tokens = [⟨.identifier text, p⟩] := by
  refine ⟨?_, ?_⟩
  · rintro ⟨text, h⟩
    obtain ⟨⟨_, p⟩, rfl, rfl⟩ := List.map_eq_singleton_iff.mp h
    exact ⟨text, p, rfl⟩
  · rintro ⟨text, p, rfl⟩
    exact ⟨text, rfl⟩

lemma name_mem (text : String) (p : Nat) :
    [(⟨.identifier text, p⟩ : Token)].map Token.kind ∈ name :=
  ⟨text, rfl⟩

lemma mem_number_iff :
    tokens.map Token.kind ∈ number ↔ ∃ value p, tokens = [⟨.number value, p⟩] := by
  refine ⟨?_, ?_⟩
  · rintro ⟨value, h⟩
    obtain ⟨⟨_, p⟩, rfl, rfl⟩ := List.map_eq_singleton_iff.mp h
    exact ⟨value, p, rfl⟩
  · rintro ⟨value, p, rfl⟩
    exact ⟨value, rfl⟩

lemma mem_optional_iff :
    tokens.map Token.kind ∈ optional l ↔ tokens = [] ∨ tokens.map Token.kind ∈ l := by
  rw [optional, Language.mem_add, Language.mem_one, List.map_eq_nil_iff]

lemma nil_mem_optional : ([] : List Token).map Token.kind ∈ optional l :=
  mem_optional_iff.mpr (.inl rfl)

/-- One more word in front of words in a row. -/
lemma append_mem_kstar (hf : first.map Token.kind ∈ l) (hr : rest.map Token.kind ∈ l∗) :
    (first ++ rest).map Token.kind ∈ l∗ := by
  rw [← Language.one_add_self_mul_kstar_eq_kstar]
  exact .inr (append_mem_mul hf hr)

/-- Words in a row are none, or one word and then words in a row. -/
@[elab_as_elim]
lemma kstar_induction {P : List Token → Prop} (nil : P [])
    (append : ∀ first rest, first.map Token.kind ∈ l → P rest → P (first ++ rest))
    (h : tokens.map Token.kind ∈ l∗) : P tokens := by
  obtain ⟨words, hw, hl⟩ := Language.mem_kstar.mp h
  induction words generalizing tokens with
  | nil =>
      rw [List.flatten_nil, List.map_eq_nil_iff] at hw
      rwa [hw]
  | cons word words ih =>
      obtain ⟨first, rest, rfl, rfl, hr⟩ := List.map_eq_append_iff.mp hw
      have hs : ∀ y ∈ words, y ∈ l := fun y hy => hl y (List.mem_cons_of_mem _ hy)
      have hm : rest.map Token.kind ∈ l∗ := hr ▸ Language.join_mem_kstar hs
      exact append first rest (hl _ List.mem_cons_self) (ih hm hr hs)

/-! ### Words and what they spell -/

lemma mem_lead_iff : tokens.map Token.kind ∈ lead ↔ ∃ names, SpellsLead tokens names := by
  refine ⟨?_, ?_⟩
  · intro h
    refine kstar_induction ⟨[], .nil⟩ ?_ h
    rintro first rest hf ⟨names, hn⟩
    obtain ⟨_, _, rfl, hf, hd⟩ := mem_mul_iff.mp hf
    obtain ⟨text, p, rfl⟩ := mem_name_iff.mp hf
    obtain ⟨q, rfl⟩ := mem_mark_iff.mp hd
    exact ⟨_, hn.cons text p q⟩
  · rintro ⟨names, hn⟩
    induction hn with
    | nil => exact Language.nil_mem_kstar _
    | cons text p q _ ih =>
        have hf : [(⟨.identifier text, p⟩ : Token), ⟨.dot, q⟩].map Token.kind ∈ name * mark .dot :=
          append_mem_mul (name_mem text p) (mark_mem .dot q)
        exact append_mem_kstar hf ih

lemma mem_mapStep_iff :
    tokens.map Token.kind ∈ mapStep ↔
      ∃ points, (points = [] ∨ ∃ q, points = [⟨.dot, q⟩])
        ∧ ((∃ text p, tokens = points ++ [⟨.identifier text, p⟩])
          ∨ ∃ p text r, tokens = points ++ [⟨.hash, p⟩, ⟨.identifier text, r⟩]) := by
  rw [mapStep, Language.mem_add]
  refine ⟨?_, ?_⟩
  · rintro (h | h)
    · obtain ⟨points, _, rfl, ho, hn⟩ := mem_mul_iff.mp h
      obtain ⟨text, p, rfl⟩ := mem_name_iff.mp hn
      exact ⟨points, (mem_optional_iff.mp ho).imp_right mem_mark_iff.mp, .inl ⟨text, p, rfl⟩⟩
    · obtain ⟨_, _, rfl, hf, hn⟩ := mem_mul_iff.mp h
      obtain ⟨points, _, rfl, ho, hh⟩ := mem_mul_iff.mp hf
      obtain ⟨p, rfl⟩ := mem_mark_iff.mp hh
      obtain ⟨text, r, rfl⟩ := mem_name_iff.mp hn
      exact ⟨points, (mem_optional_iff.mp ho).imp_right mem_mark_iff.mp,
        .inr ⟨p, text, r, by simp⟩⟩
  · rintro ⟨points, hp, ⟨text, p, rfl⟩ | ⟨p, text, r, rfl⟩⟩
    · have ho := mem_optional_iff.mpr (hp.imp_right mem_mark_iff.mpr)
      exact .inl (append_mem_mul ho (name_mem text p))
    · have ho := mem_optional_iff.mpr (hp.imp_right mem_mark_iff.mpr)
      have hh := append_mem_mul ho (mark_mem .hash p)
      refine .inr ?_
      rw [List.append_cons]
      exact append_mem_mul hh (name_mem text r)

lemma mem_steps_iff :
    tokens.map Token.kind ∈ mapStep∗ ↔ ∃ steps, SpellsSteps tokens steps := by
  refine ⟨?_, ?_⟩
  · intro h
    refine kstar_induction ⟨[], .nil⟩ ?_ h
    rintro first rest hf ⟨steps, hs⟩
    obtain ⟨points, rfl | ⟨q, rfl⟩, ⟨text, p, rfl⟩ | ⟨p, text, r, rfl⟩⟩ := mem_mapStep_iff.mp hf
    · exact ⟨_, hs.name text p⟩
    · exact ⟨_, hs.property text p r⟩
    · exact ⟨_, hs.dotName text p q⟩
    · exact ⟨_, hs.dotProperty text p r q⟩
  · rintro ⟨steps, hs⟩
    induction hs with
    | nil => exact Language.nil_mem_kstar _
    | name text p _ ih =>
        have hf := mem_mapStep_iff.mpr ⟨[], .inl rfl, .inl ⟨text, p, rfl⟩⟩
        exact append_mem_kstar hf ih
    | dotName text p q _ ih =>
        have hf := mem_mapStep_iff.mpr ⟨[⟨.dot, q⟩], .inr ⟨q, rfl⟩, .inl ⟨text, p, rfl⟩⟩
        exact append_mem_kstar hf ih
    | property text p q _ ih =>
        have hf := mem_mapStep_iff.mpr ⟨[], .inl rfl, .inr ⟨p, text, q, rfl⟩⟩
        exact append_mem_kstar hf ih
    | dotProperty text p q r _ ih =>
        have hf := mem_mapStep_iff.mpr ⟨[⟨.dot, r⟩], .inr ⟨r, rfl⟩, .inr ⟨p, text, q, rfl⟩⟩
        exact append_mem_kstar hf ih

/-- A word of the grammar of phrases is what some tokens of a phrase are. -/
lemma mem_phrase_iff : tokens.map Token.kind ∈ phrase ↔ ∃ own, SpellsPhrase tokens own := by
  refine ⟨?_, ?_⟩
  · rintro ((h | h) | h)
    · obtain ⟨_, _, rfl, hl, hs | hs⟩ := mem_mul_iff.mp h
      · obtain ⟨names, hn⟩ := mem_lead_iff.mp hl
        obtain ⟨p, rfl⟩ := mem_mark_iff.mp hs
        exact ⟨_, .input p hn⟩
      · obtain ⟨names, hn⟩ := mem_lead_iff.mp hl
        obtain ⟨_, _, rfl, hh, ht⟩ := mem_mul_iff.mp hs
        obtain ⟨p, rfl⟩ := mem_mark_iff.mp hh
        obtain ⟨text, q, rfl⟩ := mem_name_iff.mp ht
        exact ⟨_, .property text p q hn⟩
    · obtain ⟨_, _, rfl, hf, hv⟩ := mem_mul_iff.mp h
      obtain ⟨_, _, rfl, hf, hc⟩ := mem_mul_iff.mp hf
      obtain ⟨_, _, rfl, hl, hk⟩ := mem_mul_iff.mp hf
      obtain ⟨names, hn⟩ := mem_lead_iff.mp hl
      obtain ⟨key, p, rfl⟩ := mem_name_iff.mp hk
      obtain ⟨q, rfl⟩ := mem_mark_iff.mp hc
      rw [List.append_assoc, List.append_assoc]
      rcases hv with hv | hv
      · obtain ⟨value, r, rfl⟩ := mem_number_iff.mp hv
        exact ⟨_, .number key value p q r hn⟩
      · obtain ⟨text, r, rfl⟩ := mem_name_iff.mp hv
        exact ⟨_, .word key text p q r hn⟩
    · obtain ⟨_, _, rfl, hf, hs⟩ := mem_mul_iff.mp h
      obtain ⟨_, _, rfl, hf, ha⟩ := mem_mul_iff.mp hf
      obtain ⟨_, _, rfl, hl, hd⟩ := mem_mul_iff.mp hf
      obtain ⟨names, hn⟩ := mem_lead_iff.mp hl
      obtain ⟨p, rfl⟩ := mem_mark_iff.mp hd
      obtain ⟨q, rfl⟩ := mem_mark_iff.mp ha
      obtain ⟨steps, hs⟩ := mem_steps_iff.mp hs
      rw [List.append_assoc, List.append_assoc]
      exact ⟨_, .map p q hn hs⟩
  · rintro ⟨own, h⟩
    cases h with
    | input p hn =>
        have hl := mem_lead_iff.mpr ⟨_, hn⟩
        exact .inl (.inl (append_mem_mul hl (.inl (mark_mem .dollar p))))
    | property text p q hn =>
        have hl := mem_lead_iff.mpr ⟨_, hn⟩
        have hs := append_mem_mul (mark_mem .hash p) (name_mem text q)
        exact .inl (.inl (append_mem_mul hl (.inr hs)))
    | number key value p q r hn =>
        have hk := append_mem_mul (mem_lead_iff.mpr ⟨_, hn⟩) (name_mem key p)
        have hv : [(⟨.number value, r⟩ : Token)].map Token.kind ∈ number := ⟨value, rfl⟩
        have h := append_mem_mul (append_mem_mul hk (mark_mem .colon q)) (m := number + name)
          (.inl hv)
        rw [List.append_assoc, List.append_assoc] at h
        exact .inl (.inr h)
    | word key text p q r hn =>
        have hk := append_mem_mul (mem_lead_iff.mpr ⟨_, hn⟩) (name_mem key p)
        have h := append_mem_mul (append_mem_mul hk (mark_mem .colon q)) (m := number + name)
          (.inr (name_mem text r))
        rw [List.append_assoc, List.append_assoc] at h
        exact .inl (.inr h)
    | map p q hn hs =>
        have hd := append_mem_mul (mem_lead_iff.mpr ⟨_, hn⟩) (mark_mem .dollar p)
        have h := append_mem_mul (append_mem_mul hd (mark_mem .arrow q)) (mem_steps_iff.mpr ⟨_, hs⟩)
        rw [List.append_assoc, List.append_assoc] at h
        exact .inr h

/-- Further phrases, each behind a separator, go on from a phrase. -/
lemma spellsPhrases_of_mem_kstar {others points : List Token}
    (hp : points.map Token.kind ∈ optional (mark .semicolon))
    (h : others.map Token.kind ∈ (mark .semicolon * phrase)∗) :
    ∀ first own, SpellsPhrase first own →
      ∃ more, SpellsPhrases (first ++ (others ++ points)) (own :: more) := by
  refine kstar_induction ?_ ?_ h
  · intro first own ho
    rcases mem_optional_iff.mp hp with rfl | hp
    · exact ⟨[], by simpa using SpellsPhrases.last ho⟩
    · obtain ⟨p, rfl⟩ := mem_mark_iff.mp hp
      exact ⟨[], .lastSeparator p ho⟩
  · intro chunk rest hc ih first own ho
    obtain ⟨_, second, rfl, hs, ht⟩ := mem_mul_iff.mp hc
    obtain ⟨p, rfl⟩ := mem_mark_iff.mp hs
    obtain ⟨next, hn⟩ := mem_phrase_iff.mp ht
    obtain ⟨more, hm⟩ := ih second next hn
    exact ⟨next :: more, by simpa using SpellsPhrases.cons p ho hm⟩

lemma nil_mem_others : ([] : List Token).map Token.kind ∈ (mark .semicolon * phrase)∗ :=
  Language.nil_mem_kstar _

/-- Tokens that spell at least one phrase are phrases with separators between them. -/
lemma mem_of_spellsPhrases_cons {own : Phrase} {more : List Phrase}
    (h : SpellsPhrases tokens (own :: more)) :
    tokens.map Token.kind ∈
      phrase * (mark .semicolon * phrase)∗ * optional (mark .semicolon) := by
  generalize hp : own :: more = phrases at h
  induction h generalizing own more with
  | nil => exact absurd hp (by simp)
  | separator p => exact absurd hp (by simp)
  | last h =>
      have ho := append_mem_mul (mem_phrase_iff.mpr ⟨_, h⟩) nil_mem_others
      simpa using append_mem_mul ho (nil_mem_optional (l := mark .semicolon))
  | lastSeparator p h =>
      have ho := append_mem_mul (mem_phrase_iff.mpr ⟨_, h⟩) nil_mem_others
      have hs := append_mem_mul ho (mem_optional_iff.mpr (.inr (mark_mem .semicolon p)))
      simpa using hs
  | cons p h _ ih =>
      -- the second phrase moves behind its separator
      obtain ⟨_, points, rfl, hf, hs⟩ := mem_mul_iff.mp (ih rfl)
      obtain ⟨second, others, rfl, ht, ho⟩ := mem_mul_iff.mp hf
      have hc := append_mem_mul (mark_mem .semicolon p) ht
      have hw := append_mem_mul (mem_phrase_iff.mpr ⟨_, h⟩) (append_mem_kstar hc ho)
      simpa using append_mem_mul hw hs

/-- A word of the grammar of programs is what the tokens of some phrases are. -/
lemma mem_program_iff :
    tokens.map Token.kind ∈ program ↔ ∃ phrases, SpellsPhrases tokens phrases := by
  refine ⟨?_, ?_⟩
  · intro h
    obtain ⟨_, points, rfl, ho, hp⟩ := mem_mul_iff.mp h
    rcases mem_optional_iff.mp ho with rfl | ho
    · rcases mem_optional_iff.mp hp with rfl | hp
      · exact ⟨[], .nil⟩
      · obtain ⟨p, rfl⟩ := mem_mark_iff.mp hp
        exact ⟨[], .separator p⟩
    · obtain ⟨first, others, rfl, hf, ho⟩ := mem_mul_iff.mp ho
      obtain ⟨own, hs⟩ := mem_phrase_iff.mp hf
      obtain ⟨more, hm⟩ := spellsPhrases_of_mem_kstar hp ho first own hs
      exact ⟨own :: more, by rwa [List.append_assoc]⟩
  · rintro ⟨phrases, h⟩
    cases phrases with
    | cons own more =>
        obtain ⟨_, points, rfl, hf, hp⟩ := mem_mul_iff.mp (mem_of_spellsPhrases_cons h)
        exact append_mem_mul (mem_optional_iff.mpr (.inr hf)) hp
    | nil =>
        cases h with
        | nil => exact append_mem_mul nil_mem_optional nil_mem_optional
        | separator p =>
            have hs := mem_optional_iff.mpr (.inr (mark_mem .semicolon p))
            exact append_mem_mul nil_mem_optional hs

end Grammar

/-- **The programs of token lists.** A list of tokens has a program exactly if the kinds of the
tokens in front of the end of the input are a word of the grammar. The program is the one that
these tokens spell, segment by segment, and the tokens behind the end of the input do not matter. -/
theorem ofTokens_iff_grammar (tokens : List Token) :
    ((∃ program, Program.ofTokens tokens = .ok program)
      ↔ (significant tokens).map Token.kind ∈ Grammar.program)
    ∧ (∀ program, Program.ofTokens tokens = .ok program
      ↔ SpellsPhrases (significant tokens) program.phrases)
    ∧ ∀ body rest p,
        Program.ofTokens (body ++ ⟨.endOfInput, p⟩ :: rest)
          = Program.ofTokens (body ++ [⟨.endOfInput, p⟩]) := by
  refine ⟨?_, fun program => ofTokens_eq_ok_iff,
    fun body rest p => ofTokens_append_end body rest rfl⟩
  rw [Grammar.mem_program_iff]
  refine ⟨?_, ?_⟩
  · rintro ⟨program, h⟩
    exact ⟨program.phrases, ofTokens_eq_ok_iff.mp h⟩
  · rintro ⟨phrases, h⟩
    exact ⟨⟨phrases⟩, ofTokens_eq_ok_iff.mpr h⟩

end Reshape
