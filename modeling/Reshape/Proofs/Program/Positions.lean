import Reshape.Proofs.Program.RoundTrip
import Reshape.Proofs.Program.Sequence

/-!
The places of segments in the text that they are read from.

* `Introduces`: tokens introduce segments, each by its own tokens in a row, of which the first one
  stands at the place of the segment.
* `SpellsPhrases.introduces`: the tokens of phrases introduce their segments, in order.
* `Segment.Form.BeginsText`: what a text begins with where a segment stands.
* `beginsText_of_fit`: lexemes of the kinds of a segment are such a beginning.
* `position_of_ofText`: every segment of the program of a text stands where the text spells it.
-/

namespace Reshape

/-! ### Tokens that introduce segments -/

/-- The tokens introduce the segments one after the other: each one by its own tokens in a row, of
which the first one stands at the place of the segment. -/
inductive Introduces : List Token → List Segment → Prop where
  | nil : Introduces [] []
  | skip {tokens : List Token} {segments : List Segment} (token : Token) :
      Introduces tokens segments → Introduces (token :: tokens) segments
  | cons {first : Token} {own tokens : List Token} {segment : Segment} {segments : List Segment} :
      Sign.Fit segment.signs (first :: own) → first.position = segment.position →
      Introduces tokens segments → Introduces (first :: (own ++ tokens)) (segment :: segments)

namespace Introduces

variable {tokens more : List Token} {segments others : List Segment} {segment : Segment}

lemma append (h : Introduces tokens segments) (hm : Introduces more others) :
    Introduces (tokens ++ more) (segments ++ others) := by
  induction h with
  | nil => exact hm
  | skip token _ ih => exact .skip token ih
  | cons hf hp _ ih =>
      rw [List.cons_append, List.append_assoc]
      exact .cons hf hp ih

/-- The tokens of one segment. -/
lemma single {first : Token} {own : List Token} (hf : Sign.Fit segment.signs (first :: own))
    (hp : first.position = segment.position) : Introduces (first :: own) [segment] := by
  have h := cons hf hp nil
  rwa [List.append_nil] at h

/-- The places of the segments are those of some of the tokens, in order. -/
lemma sublist_position (h : Introduces tokens segments) :
    (segments.map Segment.position).Sublist (tokens.map Token.position) := by
  induction h with
  | nil => exact .slnil
  | skip token _ ih => exact .cons _ ih
  | cons _ hp _ ih =>
      rw [List.map_cons, List.map_cons, List.map_append, hp]
      exact (ih.trans (List.sublist_append_right _ _)).cons_cons _

/-- Each of the segments has its own tokens. -/
lemma exists_own (h : Introduces tokens segments) (hs : segment ∈ segments) :
    ∃ before first own after, tokens = before ++ first :: (own ++ after)
      ∧ Sign.Fit segment.signs (first :: own) ∧ first.position = segment.position := by
  induction h with
  | nil => exact absurd hs (by simp)
  | skip token _ ih =>
      obtain ⟨before, first, own, after, rfl, ho⟩ := ih hs
      exact ⟨token :: before, first, own, after, rfl, ho⟩
  | @cons first own _ _ _ hf hp _ ih =>
      rcases List.mem_cons.mp hs with rfl | hs
      · exact ⟨[], first, own, _, rfl, hf, hp⟩
      · obtain ⟨before, next, others, after, rfl, ho⟩ := ih hs
        exact ⟨first :: (own ++ before), next, others, after, by simp, ho⟩

end Introduces

section Spells

variable {tokens : List Token}

lemma SpellsLead.introduces {lead : List Segment} (h : SpellsLead tokens lead) :
    Introduces tokens lead := by
  induction h with
  | nil => exact .nil
  | cons text p q _ ih =>
      have hn : Introduces [⟨.identifier text, p⟩] [⟨.name text, p⟩] := .single rfl rfl
      exact hn.append (ih.skip ⟨.dot, q⟩)

lemma SpellsSteps.introduces {steps : List Segment} (h : SpellsSteps tokens steps) :
    Introduces tokens steps := by
  have hname : ∀ text p, Introduces [⟨.identifier text, p⟩] [⟨.name text, p⟩] :=
    fun text p => .single rfl rfl
  have hproperty : ∀ text p q,
      Introduces [⟨.hash, p⟩, ⟨.identifier text, q⟩] [⟨.property text, p⟩] :=
    fun text p q => .single rfl rfl
  induction h with
  | nil => exact .nil
  | name text p _ ih => exact (hname text p).append ih
  | dotName text p q _ ih => exact ((hname text p).append ih).skip ⟨.dot, q⟩
  | property text p q _ ih => exact (hproperty text p q).append ih
  | dotProperty text p q r _ ih => exact ((hproperty text p q).append ih).skip ⟨.dot, r⟩

/-- The tokens of a phrase introduce its segments. -/
lemma SpellsPhrase.introduces {phrase : Phrase} (h : SpellsPhrase tokens phrase) :
    Introduces tokens phrase.segments := by
  cases h with
  | input p hl => exact hl.introduces.append (.single rfl rfl)
  | property text p q hl => exact hl.introduces.append (.single rfl rfl)
  | number key value p q r hl => exact hl.introduces.append (.single rfl rfl)
  | word key text p q r hl => exact hl.introduces.append (.single rfl rfl)
  | map p q hl hs =>
      have he : Introduces [⟨.dollar, p⟩, ⟨.arrow, q⟩] [⟨.each, p⟩] := .single rfl rfl
      exact hl.introduces.append (he.append hs.introduces)

/-- The tokens of phrases introduce their segments, in order. -/
lemma SpellsPhrases.introduces {phrases : List Phrase} (h : SpellsPhrases tokens phrases) :
    Introduces tokens (phrases.flatMap Phrase.segments) := by
  induction h with
  | nil => exact .nil
  | separator p => exact .skip _ .nil
  | last h =>
      rw [List.flatMap_singleton]
      exact h.introduces
  | lastSeparator p h =>
      rw [List.flatMap_singleton, ← List.append_nil (Phrase.segments _)]
      exact h.introduces.append (.skip _ .nil)
  | cons p h _ ih =>
      rw [List.flatMap_cons]
      exact h.introduces.append (ih.skip _)

end Spells

/-! ### What a text begins with -/

/-- The text begins with a word, and goes on with no letter and no digit. -/
def BeginsWithWord (word : String) (input : List Char) : Prop :=
  IsWord word ∧ ∃ rest, input = word.toList ++ rest ∧ ∀ c ∈ rest.head?, c.isAlphanum = false

/-- Behind the blanks in front of the text, if there are any, stands what has the property. -/
def BehindBlanks (P : List Char → Prop) (input : List Char) : Prop :=
  ∃ blanks rest, input = blanks ++ rest ∧ (∀ c ∈ blanks, isBlank c) ∧ P rest

/-- The text begins with a constant: with a word that stands for itself, or with the longest numeral
at its front, which is that of the number. -/
def Constant.BeginsText (input : List Char) : Constant → Prop
  | .word text => BeginsWithWord text input
  | .number value => ∃ numeral rest, input = numeral ++ rest
      ∧ IsLexeme numeral (.number value) ∧ IsLongest numeral input

/-- The text begins with a step of a phrase, with or without blanks between its tokens. -/
def Segment.Form.BeginsText (input : List Char) : Segment.Form → Prop
  | .name text => BeginsWithWord text input
  | .property text => ∃ rest, input = '#' :: rest ∧ BehindBlanks (BeginsWithWord text) rest
  | .input => ∃ rest, input = '$' :: rest
  | .each => ∃ rest, input = '$' :: rest ∧ BehindBlanks (∃ tail, · = '>' :: tail) rest
  | .constant key value => ∃ rest, IsWord key ∧ input = key.toList ++ rest
      ∧ BehindBlanks (∃ tail, · = ':' :: tail ∧ BehindBlanks (value.BeginsText ·) tail) rest

/-! ### Lexemes of given kinds -/

section Lexemes

variable {text rest : List Char} {kind : Token.Kind}

/-- A lexeme that is no numeral is the text of its kind. -/
lemma IsLexeme.eq_text (h : IsLexeme text kind) (hk : ∀ value, kind ≠ .number value) :
    text = kind.text.toList := by
  cases h with
  | punctuation hp =>
      rcases punctuation?_cases hp with rfl | rfl | rfl | rfl | rfl | rfl <;> (cases hp; rfl)
  | identifier _ _ => exact String.toList_ofList.symm
  | whole _ _ => exact absurd rfl (hk _)
  | decimal _ _ _ => exact absurd rfl (hk _)

lemma IsLexeme.isWord {word : String} (h : IsLexeme text (.identifier word)) : IsWord word := by
  cases h with
  | punctuation hp =>
      rcases punctuation?_cases hp with rfl | rfl | rfl | rfl | rfl | rfl <;> cases hp
  | @identifier c more hc hm => exact ⟨c, more, String.toList_ofList, hc, hm⟩

/-- The longest lexeme at the front of a text that is a name is a word with no letter and no digit
behind it. -/
lemma IsLexeme.beginsWithWord {word : String} (h : IsLexeme text (.identifier word))
    (hlong : IsLongest text (text ++ rest)) : BeginsWithWord word (text ++ rest) := by
  obtain rfl := h.eq_text (by simp)
  obtain ⟨first, more, hw, hf, hm⟩ := h.isWord
  refine ⟨h.isWord, rest, rfl, fun c hc => ?_⟩
  by_contra ha
  rw [Bool.not_eq_false] at ha
  obtain ⟨tail, rfl⟩ := List.head?_eq_some_iff.mp hc
  -- with this character the word would be a longer lexeme
  have hall : ∀ d ∈ more ++ [c], d.isAlphanum :=
    List.forall_mem_append.mpr ⟨hm, List.forall_mem_singleton.mpr ha⟩
  refine hlong _ _ ?_ ⟨tail, ?_⟩ (.identifier hf hall)
  · rw [Token.Kind.text, hw]
    simp
  · rw [Token.Kind.text, hw]
    simp

namespace Piece

variable {piece : Piece} {own pieces : List Piece} {P : List Char → Prop}

lemma IsCut.behindBlanks (h : IsCut (piece :: pieces)) (hne : pieces ≠ [])
    (hP : P (piece.lexeme ++ texts pieces)) : BehindBlanks P (texts (piece :: pieces)) :=
  ⟨piece.blanks, _, texts_cons piece pieces, (h.of_cons hne).1, hP⟩

lemma IsCut.lexeme_eq {kind : Token.Kind} (h : IsCut (piece :: pieces)) (hne : pieces ≠ [])
    (hk : piece.kind = kind) (hn : ∀ value, kind ≠ .number value) :
    piece.lexeme = kind.text.toList := by
  subst hk
  exact (h.of_cons hne).2.1.eq_text hn

lemma IsCut.beginsWithWord {word : String} (h : IsCut (piece :: pieces)) (hne : pieces ≠ [])
    (hk : piece.kind = .identifier word) : BeginsWithWord word (piece.lexeme ++ texts pieces) := by
  obtain ⟨-, hl, hlong, -⟩ := h.of_cons hne
  exact (hk ▸ hl).beginsWithWord hlong

end Piece

/-- A piece of the kind of a constant begins with the constant. -/
lemma Constant.beginsText {piece : Piece} {pieces : List Piece} {value : Constant}
    (h : Piece.IsCut (piece :: pieces)) (hne : pieces ≠ []) (hk : piece.kind = value.kind) :
    value.BeginsText (piece.lexeme ++ Piece.texts pieces) := by
  cases value with
  | word text => exact h.beginsWithWord hne hk
  | number n =>
      obtain ⟨-, hl, hlong, -⟩ := h.of_cons hne
      rw [hk] at hl
      exact ⟨piece.lexeme, _, rfl, hl, hlong⟩

/-- Pieces of the kinds of a segment begin with the segment. -/
lemma beginsText_of_fit {s : Segment} {first : Piece} {own pieces : List Piece}
    (h : Piece.IsCut (first :: (own ++ pieces))) (hne : pieces ≠ [])
    (hk : (first :: own).map Piece.kind = s.signs.map Sign.kind) :
    s.form.BeginsText (first.lexeme ++ Piece.texts (own ++ pieces)) := by
  have hf : own ++ pieces ≠ [] := List.append_ne_nil_of_right_ne_nil own hne
  obtain ⟨-, -, -, hc⟩ := h.of_cons hf
  obtain ⟨form, p⟩ := s
  cases form with
  | name text => exact h.beginsWithWord hf (List.cons.inj hk).1
  | property text =>
      obtain ⟨hfirst, ho⟩ := List.cons.inj hk
      obtain ⟨second, rfl, hs⟩ := List.map_eq_singleton_iff.mp ho
      rw [h.lexeme_eq hf hfirst (by simp)]
      exact ⟨_, rfl, hc.behindBlanks hne (hc.beginsWithWord hne hs)⟩
  | input =>
      rw [h.lexeme_eq hf (List.cons.inj hk).1 (by simp)]
      exact ⟨_, rfl⟩
  | each =>
      obtain ⟨hfirst, ho⟩ := List.cons.inj hk
      obtain ⟨second, rfl, hs⟩ := List.map_eq_singleton_iff.mp ho
      rw [h.lexeme_eq hf hfirst (by simp)]
      refine ⟨_, rfl, hc.behindBlanks hne ?_⟩
      rw [hc.lexeme_eq hne hs (by simp)]
      exact ⟨_, rfl⟩
  | constant key value =>
      obtain ⟨hfirst, ho⟩ := List.cons.inj hk
      obtain ⟨colon, more, rfl, hcolon, ho⟩ := List.map_eq_cons_iff.mp ho
      obtain ⟨last, rfl, hl⟩ := List.map_eq_singleton_iff.mp ho
      obtain ⟨-, -, -, hlast⟩ := hc.of_cons (List.cons_ne_nil last pieces)
      obtain ⟨hw, rest, hr, -⟩ := h.beginsWithWord hf hfirst
      rw [h.lexeme_eq hf hfirst (by simp)]
      refine ⟨_, hw, rfl, hc.behindBlanks (List.cons_ne_nil last pieces) ?_⟩
      rw [hc.lexeme_eq (List.cons_ne_nil last pieces) hcolon (by simp)]
      exact ⟨_, rfl, hlast.behindBlanks hne (Constant.beginsText hlast hne hl)⟩

end Lexemes

/-! ### Segments of programs -/

namespace Piece

lemma exists_append_of_tokens_eq {pieces : List Piece} {offset : Nat} {before more : List Token}
    (h : tokens offset pieces = before ++ more) :
    ∃ own rest, pieces = own ++ rest ∧ tokens offset own = before
      ∧ tokens (offset + (texts own).length) rest = more := by
  induction before generalizing offset pieces with
  | nil => exact ⟨[], pieces, rfl, rfl, h⟩
  | cons token before ih =>
      cases pieces with
      | nil => exact absurd h (by simp [tokens])
      | cons piece pieces =>
          obtain ⟨ht, hr⟩ := List.cons.inj h
          obtain ⟨own, rest, rfl, ho, hm⟩ := ih hr
          refine ⟨piece :: own, rest, rfl, by rw [tokens, ht, ho], ?_⟩
          rw [texts_cons, ← hm]
          simp only [List.length_append, Nat.add_assoc]

lemma IsCut.of_append {own rest : List Piece} (h : IsCut (own ++ rest)) (hne : rest ≠ []) :
    IsCut rest := by
  induction own with
  | nil => exact h
  | cons piece own ih =>
      rw [List.cons_append] at h
      exact ih (h.of_cons (List.append_ne_nil_of_right_ne_nil own hne)).2.2.2

end Piece

/-- Where the tokens of a segment begin, the text begins with the segment. -/
lemma beginsText_drop {own : List Piece} {blanks : List Char} {s : Segment}
    {before more after : List Token} {first : Token}
    (hc : Piece.IsCut (own ++ [⟨blanks, [], .endOfInput⟩]))
    (ht : Piece.tokens 0 own = before ++ first :: (more ++ after))
    (hf : Sign.Fit s.signs (first :: more)) :
    s.form.BeginsText ((Piece.texts own ++ blanks).drop first.position) := by
  obtain ⟨front, back, rfl, -, hb⟩ := Piece.exists_append_of_tokens_eq ht
  cases back with
  | nil => exact absurd hb (by simp [Piece.tokens])
  | cons piece back =>
      obtain ⟨rfl, hr⟩ := List.cons.inj hb
      obtain ⟨kinds, rest, rfl, rfl, -⟩ := Piece.exists_append_of_tokens_eq hr
      rw [List.append_assoc] at hc
      have hcut := hc.of_append (by simp)
      rw [List.cons_append, List.append_assoc] at hcut
      have hk : (piece :: kinds).map Piece.kind = s.signs.map Sign.kind := by
        rw [← hf, List.map_cons, List.map_cons, Piece.map_kind_tokens]
      have htext : Piece.texts (front ++ piece :: (kinds ++ rest)) ++ blanks =
          (Piece.texts front ++ piece.blanks)
            ++ (piece.lexeme ++ Piece.texts (kinds ++ (rest ++ [⟨blanks, [], .endOfInput⟩]))) := by
        rw [Piece.texts_append, Piece.texts_cons, ← List.append_assoc kinds,
          Piece.texts_append (kinds ++ rest), Piece.texts_finish]
        simp only [List.append_assoc]
      rw [htext, Nat.zero_add, ← List.length_append, List.drop_left]
      exact beginsText_of_fit hcut (by simp) hk

/-- **Places of segments.** The segments of the program of a text stand one behind the other, all of
them inside the text. Where a segment stands, the text begins with the segment: a name is a letter
with all the letters and digits behind it, a property is `#` and its name, the input is `$`, the map
operator is `$` and `>`, and a constant is its key, `:` and the text of its value, with or without
blanks in between. -/
theorem position_of_ofText {text : String} {program : Program}
    (h : Program.ofText text = .ok program) :
    (program.segments.map Segment.position).Pairwise (· < ·)
    ∧ ∀ s ∈ program.segments, s.position < text.length
      ∧ s.form.BeginsText (text.toList.drop s.position) := by
  obtain ⟨body, hb, hp⟩ := ofText_eq_ok_iff.mp h
  have hi := hp.introduces
  obtain ⟨own, blanks, hc, ht, rfl⟩ := isBody_iff.mp hb
  refine ⟨?_, fun s hs => ?_⟩
  · have hpos := Piece.pairwise_position hc 0
    rw [Piece.tokens_append, List.map_append] at hpos
    exact (List.pairwise_append.mp hpos).1.sublist hi.sublist_position
  · obtain ⟨before, first, more, after, hbody, hf, hpos⟩ := hi.exists_own hs
    obtain ⟨body, heq, hlt⟩ := exists_eq_concat_of_ofText hb
    obtain rfl := List.append_cancel_right heq
    rw [← hpos, ← ht]
    exact ⟨(hlt first (by simp [hbody])).2, beginsText_drop hc hbody hf⟩

/-- A text with blanks of several kinds inside its phrases, a numeral with a point at its end and a
second phrase. -/
theorem position_of_ofText_spaced :
    let text := "a\u00a0. # b ;c. $ > .d#e;k:\t1."
    ∃ program, Program.ofText text = .ok program
      ∧ program.segments.map Segment.position = [0, 4, 9, 12, 17, 18, 21]
      ∧ ∀ s ∈ program.segments, s.position < text.length
        ∧ s.form.BeginsText (text.toList.drop s.position) := by
  intro text
  have h : Program.ofText text =
      .ok ⟨[.path [⟨.name "a", 0⟩, ⟨.property "b", 4⟩],
        .map [⟨.name "c", 9⟩] [⟨.each, 12⟩, ⟨.name "d", 17⟩, ⟨.property "e", 18⟩],
        .value [⟨.constant "k" (.number (.integer 1)), 21⟩]]⟩ :=
    toOption_eq_some_iff.mp (by decide +kernel)
  exact ⟨_, h, by decide, (position_of_ofText h).2⟩

end Reshape
