import Reshape.Proofs.Number.Numeral
import Reshape.Proofs.Program.Writing
import Reshape.Proofs.Token.Join

/-!
The numbers in the programs of texts.

* `exists_token_of_number`: a number in a program is the number of one of the tokens.
* `ofText_ne_nan` and `canonical?_ofText_isSome`: what digits spell is a number, if perhaps an
  infinite one.
* `exists_numeral_of_number`: a number in the program of a text is spelled by a piece of the text.
-/

namespace Reshape

/-! ### Tokens of numbers -/

variable {tokens : List Token} {s : Segment} {key : String} {value : Number}

/-- Names and properties are no constants. -/
lemma form_ne_constant {constant : Constant} (h : ¬ s.IsConstant) :
    s.form ≠ .constant key constant :=
  fun hf => h ⟨key, constant, hf⟩

/-- A number in a phrase is the number of one of its tokens. -/
lemma SpellsPhrase.exists_token_of_number {phrase : Phrase} (h : SpellsPhrase tokens phrase)
    (hs : s ∈ phrase.segments) (hf : s.form = .constant key (.number value)) :
    ∃ p, (⟨.number value, p⟩ : Token) ∈ tokens := by
  have hlead : ∀ {more : List Token} {lead : List Segment}, SpellsLead more lead → s ∉ lead :=
    fun hl hm => form_ne_constant (hl.isName s hm).not_isConstant hf
  have hlast : ∀ {more : List Token} {lead : List Segment} {last : Segment},
      SpellsLead more lead → s ∈ lead ++ [last] → s = last := by
    intro more lead last hl hm
    simpa using (List.mem_append.mp hm).resolve_left (hlead hl)
  cases h with
  | input p hl =>
      obtain rfl := hlast hl hs
      exact absurd hf (by simp)
  | property text p q hl =>
      obtain rfl := hlast hl hs
      exact absurd hf (by simp)
  | number other n p q r hl =>
      obtain rfl := hlast hl hs
      obtain ⟨rfl, rfl⟩ : other = key ∧ n = value := by simpa using hf
      exact ⟨r, by simp⟩
  | word other text p q r hl =>
      obtain rfl := hlast hl hs
      exact absurd hf (by simp)
  | map p q hl hsteps =>
      rcases List.mem_cons.mp ((List.mem_append.mp hs).resolve_left (hlead hl)) with rfl | hs
      · exact absurd hf (by simp)
      · exact absurd hf (form_ne_constant (hsteps.isStep s hs).not_isConstant)

/-- A number in phrases is the number of one of their tokens. -/
lemma SpellsPhrases.exists_token_of_number {phrases : List Phrase}
    (h : SpellsPhrases tokens phrases) (hs : s ∈ phrases.flatMap Phrase.segments)
    (hf : s.form = .constant key (.number value)) :
    ∃ p, (⟨.number value, p⟩ : Token) ∈ tokens := by
  induction h with
  | nil => exact absurd hs (by simp)
  | separator p => exact absurd hs (by simp)
  | last h => exact h.exists_token_of_number (by simpa using hs) hf
  | lastSeparator p h =>
      obtain ⟨q, hq⟩ := h.exists_token_of_number (by simpa using hs) hf
      exact ⟨q, List.mem_append_left _ hq⟩
  | cons p h _ ih =>
      rw [List.flatMap_cons] at hs
      rcases List.mem_append.mp hs with hs | hs
      · obtain ⟨q, hq⟩ := h.exists_token_of_number hs hf
        exact ⟨q, List.mem_append_left _ hq⟩
      · obtain ⟨q, hq⟩ := ih hs
        exact ⟨q, List.mem_append_right _ (List.mem_cons_of_mem _ hq)⟩

/-! ### Numbers that are spelled -/

/-- Whatever digits spell is a number. -/
lemma ofText_ne_nan (digits : List Char) : Number.ofText digits ≠ .float .nan := by
  rw [Number.ofText, Numeral.toNumber]
  split
  · simp
  · exact fun h => Binary64.ofDecimal_ne_nan _ _ _ (Number.float.inj h)

lemma canonical?_ofText_isSome (digits : List Char) : (Number.ofText digits).canonical?.isSome := by
  rw [Option.isSome_iff_ne_none, ne_eq, Number.canonical?_eq_none_iff]
  exact ofText_ne_nan digits

/-- The lexemes of numbers are the texts of numerals. -/
lemma isLexeme_number_iff {text : List Char} : IsLexeme text (.number value) ↔
    ∃ n : Numeral, n.IsLegible ∧ n.IsSpelledBy text ∧ value = n.toNumber := by
  have hv : ∀ {n : Numeral}, n.IsLegible → n.IsSpelledBy text →
      Number.ofText text = n.toNumber := by
    intro n hn h
    rw [Number.ofText, Numeral.ofText_eq hn h]
  refine ⟨fun h => ?_, ?_⟩
  · cases h with
    | punctuation hp =>
        unfold punctuation? at hp
        split at hp <;> cases hp
    | whole hne hd =>
        have hn : Numeral.IsLegible ⟨text, []⟩ := ⟨hne, hd, by simp⟩
        exact ⟨_, hn, .inr ⟨rfl, rfl⟩, hv hn (.inr ⟨rfl, rfl⟩)⟩
    | decimal hne hd hf => exact ⟨⟨_, _⟩, ⟨hne, hd, hf⟩, .inl rfl, hv ⟨hne, hd, hf⟩ (.inl rfl)⟩
  · rintro ⟨n, hn, h, rfl⟩
    rw [← hv hn h]
    rcases h with rfl | ⟨-, rfl⟩
    · exact .decimal hn.whole_ne_nil hn.whole hn.fraction
    · exact .whole hn.whole_ne_nil hn.whole

/-! ### Programs of texts -/

namespace Piece

/-- A piece of a cut is the end of the input or a lexeme. -/
lemma IsCut.isLexeme_of_mem {pieces : List Piece} {piece : Piece} (h : IsCut pieces)
    (hm : piece ∈ pieces) (hk : piece.kind ≠ .endOfInput) : IsLexeme piece.lexeme piece.kind := by
  obtain ⟨own, blanks, rfl, -, ho⟩ := h.exists_concat
  rcases List.mem_append.mp hm with hown | hend
  · exact (ho piece hown).2
  · obtain rfl := List.mem_singleton.mp hend
    exact absurd rfl hk

end Piece

/-- A number in the program of a text is spelled by one of the pieces that the text is cut into. -/
lemma exists_numeral_of_number {text : String} {program : Program}
    (h : Program.ofText text = .ok program) (hs : s ∈ program.segments)
    (hf : s.form = .constant key (.number value)) :
    ∃ pieces, Piece.IsCut pieces ∧ Piece.texts pieces = text.toList
      ∧ ∃ piece ∈ pieces, ∃ n : Numeral,
        n.IsLegible ∧ n.IsSpelledBy piece.lexeme ∧ value = n.toNumber := by
  obtain ⟨tokens, ht, hp⟩ := bind_eq_ok_iff.mp h
  obtain ⟨pieces, hc, hx, rfl⟩ := exists_isCut_of_ofText ht
  obtain ⟨p, hm⟩ := (ofTokens_eq_ok_iff.mp hp).exists_token_of_number hs hf
  have hm := List.mem_map_of_mem (List.takeWhile_subset _ hm) (f := Token.kind)
  rw [Piece.map_kind_tokens] at hm
  obtain ⟨piece, hpiece, hk⟩ := List.mem_map.mp hm
  have hk : piece.kind = .number value := hk
  refine ⟨pieces, hc, hx, piece, hpiece, isLexeme_number_iff.mp ?_⟩
  exact hk ▸ hc.isLexeme_of_mem hpiece (by simp [hk])

/-- **Numbers of texts**: a number in the program of a text is spelled by some digits. -/
lemma exists_ofText_of_number {text : String} {program : Program}
    (h : Program.ofText text = .ok program) (hs : s ∈ program.segments)
    (hf : s.form = .constant key (.number value)) : ∃ digits, value = .ofText digits := by
  obtain ⟨-, -, -, piece, -, n, hn, hd, rfl⟩ := exists_numeral_of_number h hs hf
  exact ⟨piece.lexeme, by rw [Number.ofText, Numeral.ofText_eq hn hd]⟩

end Reshape
