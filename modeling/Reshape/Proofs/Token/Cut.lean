import Reshape.Proofs.Token.Longest
import Reshape.Proofs.Token.Reading

/-!
A text is cut into its tokens in exactly one way.

* `tokens_texts`: the tokens of the text of a cut are the tokens of the cut.
* `exists_isCut_or_invalid`: every text has a cut, or a first character that no phrase text may
  hold, and then that character is reported.
* `IsCut.eq_of_texts_eq`: a text has no two cuts.
* `exists_tokens_eq_concat` and `pairwise_position`: the end of the input stands behind the other
  tokens of a cut, and each token stands further on than the ones before it.
* `ofText_cut`: all of this for the tokens of a text.
-/

namespace Reshape

variable {text rest : List Char} {kind : Token.Kind}

/-! ### Characters of lexemes -/

lemma isTextual_of_isDigit {c : Char} (h : c.isDigit) : IsTextual c :=
  .inr (.inl (by rw [Char.isAlphanum, h, Bool.or_true]))

lemma IsLexeme.isTextual (h : IsLexeme text kind) : ∀ c ∈ text, IsTextual c := by
  cases h with
  | @punctuation c _ hp =>
      refine List.forall_mem_singleton.mpr (.inr (.inr ?_))
      rcases punctuation?_cases hp with rfl | rfl | rfl | rfl | rfl | rfl <;> decide
  | @identifier c rest hc hr =>
      have ha : c.isAlphanum := by rw [Char.isAlphanum, hc, Bool.true_or]
      exact List.forall_mem_cons.mpr ⟨.inr (.inl ha), fun d hd => .inr (.inl (hr d hd))⟩
  | whole _ hd => exact fun c hc => isTextual_of_isDigit (hd c hc)
  | @decimal digits fraction _ hd hf =>
      refine List.forall_mem_append.mpr ⟨fun c hc => isTextual_of_isDigit (hd c hc), ?_⟩
      exact List.forall_mem_cons.mpr
        ⟨.inr (.inr (by decide)), fun c hc => isTextual_of_isDigit (hf c hc)⟩

/-- A character that is no blank and begins no lexeme may not stand in a phrase text. -/
lemma not_isTextual {c : Char} {own : List Char} (hb : isBlank c = false)
    (hk : lexemeKind? c own = none) : ¬ IsTextual c := by
  rw [lexemeKind?] at hk
  split_ifs at hk with ha hd
  rintro (h | h | h)
  · exact absurd h (by simp [hb])
  · exact absurd h (by simp [Char.isAlphanum, ha, hd])
  · simp only [List.mem_cons, List.not_mem_nil, or_false] at h
    rcases h with rfl | rfl | rfl | rfl | rfl | rfl <;> simp [punctuation?] at hk

/-- A character that may not stand in a phrase text is no blank and begins no lexeme. -/
lemma lexeme_of_not_isTextual {c : Char} (h : ¬ IsTextual c) (rest : List Char) :
    isBlank c = false ∧ lexeme (c :: rest) = [c] ∧ lexemeKind? c [] = none := by
  have hb : isBlank c = false := by
    by_contra hb
    exact h (.inl (by simpa using hb))
  have ha : ¬ c.isAlphanum := fun ha => h (.inr (.inl ha))
  have hp : punctuation? c = none := by
    rw [Option.eq_none_iff_forall_ne_some]
    intro kind hk
    rcases punctuation?_cases hk with rfl | rfl | rfl | rfl | rfl | rfl <;>
      exact h (.inr (.inr (by decide)))
  rw [Char.isAlphanum, Bool.or_eq_true, not_or] at ha
  exact ⟨hb, by rw [lexeme, if_neg ha.1, if_neg ha.2], by
    rw [lexemeKind?, if_neg ha.1, if_neg ha.2, hp]⟩

/-- The character at the front of an input is the first one of its lexeme. -/
lemma exists_lexeme_cons (first : Char) (rest : List Char) :
    ∃ own after, lexeme (first :: rest) = first :: own ∧ rest = own ++ after := by
  have hn : lexeme (first :: rest) ≠ [] := by
    rw [lexeme]
    split_ifs with ha hd
    · exact List.cons_ne_nil _ _
    · rw [numeralLexeme, List.takeWhile_cons_of_pos hd]
      split <;> exact List.cons_ne_nil _ _
    · exact List.cons_ne_nil _ _
  obtain ⟨c, own, hc⟩ := List.exists_cons_of_ne_nil hn
  obtain ⟨after, ha⟩ := lexeme_prefix (first :: rest)
  rw [hc, List.cons_append] at ha
  obtain ⟨rfl, rfl⟩ := List.cons.inj ha
  exact ⟨own, after, hc, rfl⟩

/-- A lexeme does not begin with a blank. -/
lemma IsLexeme.isBlank_head (h : IsLexeme text kind) (rest : List Char) :
    ∀ c ∈ (text ++ rest).head?, isBlank c = false := by
  obtain ⟨first, more, rfl, hb, -⟩ := h.exists_cons
  rintro c hc
  cases hc
  exact hb

namespace Piece

variable {piece : Piece} {pieces other : List Piece} {offset : Nat}

lemma texts_cons (piece : Piece) (pieces : List Piece) :
    texts (piece :: pieces) = piece.blanks ++ (piece.lexeme ++ texts pieces) := by
  rw [texts, List.flatMap_cons, List.append_assoc]
  rfl

@[simp] lemma texts_finish (blanks : List Char) : texts [⟨blanks, [], .endOfInput⟩] = blanks := by
  rw [texts_cons]
  exact List.append_nil blanks

lemma IsCut.isTextual (h : IsCut pieces) : ∀ c ∈ texts pieces, IsTextual c := by
  induction h with
  | finish hb =>
      rw [texts_finish]
      exact fun c hc => .inl (hb c hc)
  | cons hb hl _ _ ih =>
      rw [texts_cons]
      exact List.forall_mem_append.mpr
        ⟨fun c hc => .inl (hb c hc), List.forall_mem_append.mpr ⟨hl.isTextual, ih⟩⟩

/-! ### The tokens of a cut -/

/-- The tokens of the text of a cut are the tokens of the cut. -/
lemma tokens_texts (h : IsCut pieces) (offset : Nat) :
    Cursor.tokens ⟨offset, texts pieces⟩ = .ok (tokens offset pieces) := by
  induction h generalizing offset with
  | finish hb =>
      rw [texts_finish]
      exact Cursor.tokens_of_end (Cursor.next_of_blanks hb) rfl
  | @cons piece rest hb hl hlong _ ih =>
      have hn : Cursor.next ⟨offset, piece.blanks ++ (piece.lexeme ++ texts rest)⟩ = _ :=
        Cursor.next_of_lexemeIs hb (lexemeIs_iff.mpr ⟨hl, hlong⟩)
      rw [texts_cons, Cursor.tokens_of_token hn hl.kind_ne_endOfInput, ih]
      rfl

/-- Every text has a cut, or a first character that no phrase text may hold, and then that character
is reported. -/
lemma exists_isCut_or_invalid (input : List Char) :
    (∃ pieces, IsCut pieces ∧ texts pieces = input)
      ∨ ∃ before c after, input = before ++ c :: after ∧ (∀ d ∈ before, IsTextual d) ∧ ¬ IsTextual c
        ∧ ∀ offset, Cursor.tokens ⟨offset, input⟩ =
          .error (.invalidCharacter c (offset + before.length)) := by
  induction hn : input.length using Nat.strong_induction_on generalizing input with
  | _ n ih =>
    subst hn
    obtain ⟨blanks, behind, rfl, hb, hs⟩ : ∃ blanks behind, input = blanks ++ behind
        ∧ (∀ d ∈ blanks, isBlank d) ∧ ∀ d ∈ behind.head?, isBlank d = false := by
      refine ⟨input.takeWhile isBlank, input.dropWhile isBlank,
        List.takeWhile_append_dropWhile.symm, fun d hd => List.mem_takeWhile_imp hd, ?_⟩
      intro d hd
      have hs := List.head?_dropWhile_not isBlank input
      rwa [Option.mem_def.mp hd] at hs
    cases behind with
    | nil =>
        refine .inl ⟨[⟨blanks, [], .endOfInput⟩], .finish hb, ?_⟩
        rw [texts_finish, List.append_nil]
    | cons first more =>
        have hf : isBlank first = false := hs first rfl
        obtain ⟨own, after, hl, rfl⟩ := exists_lexeme_cons first more
        cases hk : lexemeKind? first own with
        | none =>
            refine .inr ⟨blanks, first, own ++ after, rfl, fun d hd => .inl (hb d hd),
              not_isTextual hf hk, fun offset => ?_⟩
            exact Cursor.tokens_of_error (Cursor.next_of_invalid hb hf hl hk)
        | some kind =>
            have hi : kind.LexemeIs (first :: own) (first :: own ++ after) :=
              ⟨hl, first, own, rfl, hf, hk⟩
            obtain ⟨hx, hlong⟩ := lexemeIs_iff.mp hi
            have hlt : after.length < (blanks ++ first :: (own ++ after)).length := by
              simp only [List.length_append, List.length_cons]
              omega
            rcases ih _ hlt after rfl with ⟨pieces, hc, rfl⟩ | ⟨before, c, tail, rfl, ht, hc, he⟩
            · exact .inl ⟨⟨blanks, first :: own, kind⟩ :: pieces, .cons hb hx hlong hc,
                texts_cons _ _⟩
            · refine .inr ⟨blanks ++ (first :: own ++ before), c, tail, by simp, ?_, hc,
                fun offset => ?_⟩
              · exact List.forall_mem_append.mpr ⟨fun d hd => .inl (hb d hd),
                  List.forall_mem_append.mpr ⟨hx.isTextual, ht⟩⟩
              · have hn : Cursor.next ⟨offset, blanks ++ (first :: (own ++ _))⟩ = _ :=
                  Cursor.next_of_lexemeIs hb hi
                rw [Cursor.tokens_of_token hn hx.kind_ne_endOfInput, he, List.length_append,
                  List.length_append, ← Nat.add_assoc, ← Nat.add_assoc]
                rfl

/-! ### One cut for a text -/

/-- A text has no two cuts. -/
lemma IsCut.eq_of_texts_eq (h : IsCut pieces) (ho : IsCut other) (ht : texts pieces = texts other) :
    pieces = other := by
  -- blanks alone hold no lexeme
  have hfinish : ∀ {blanks : List Char} {piece : Piece} {rest : List Piece},
      (∀ c ∈ blanks, isBlank c) → IsLexeme piece.lexeme piece.kind →
      blanks ≠ texts (piece :: rest) := by
    rintro blanks piece rest hb hl rfl
    obtain ⟨first, more, hm, hf, -⟩ := hl.exists_cons
    have hmem : first ∈ texts (piece :: rest) := by simp [texts_cons, hm]
    exact absurd (hb first hmem) (by simp [hf])
  induction h generalizing other with
  | finish hb =>
      rw [texts_finish] at ht
      cases ho with
      | finish hc => rw [ht, texts_finish]
      | cons _ hl _ _ => exact absurd ht (hfinish hb hl)
  | @cons piece rest hb hl hlong _ ih =>
      cases ho with
      | finish hc => exact absurd (ht.trans (texts_finish _)).symm (hfinish hc hl)
      | @cons piece' rest' hb' hl' hlong' ho =>
          rw [texts_cons, texts_cons] at ht
          obtain ⟨hw, hr⟩ := takeWhile_append_of_stop hb (hl.isBlank_head (texts rest))
          obtain ⟨hw', hr'⟩ := takeWhile_append_of_stop hb' (hl'.isBlank_head (texts rest'))
          have hblanks : piece.blanks = piece'.blanks := by rw [← hw, ht, hw']
          have hbehind : piece.lexeme ++ texts rest = piece'.lexeme ++ texts rest' := by
            rw [← hr, ht, hr']
          have hlexeme : piece.lexeme = piece'.lexeme := by
            rw [← (lexemeIs_iff.mpr ⟨hl, hlong⟩).lexeme_eq, hbehind,
              (lexemeIs_iff.mpr ⟨hl', hlong'⟩).lexeme_eq]
          have hkind : piece.kind = piece'.kind := (hlexeme ▸ hl).kind_eq hl'
          rw [hlexeme, List.append_cancel_left_eq] at hbehind
          obtain ⟨blanks, lexeme, kind⟩ := piece
          cases hblanks
          cases hlexeme
          cases hkind
          rw [ih ho hbehind]

/-! ### Where the tokens stand -/

/-- The end of the input stands behind the other tokens of a cut, and nowhere else. -/
lemma exists_tokens_eq_concat (h : IsCut pieces) (offset : Nat) :
    ∃ body, tokens offset pieces = body ++ [⟨.endOfInput, offset + (texts pieces).length⟩]
      ∧ ∀ token ∈ body, token.kind ≠ .endOfInput := by
  induction h generalizing offset with
  | finish hb => exact ⟨[], by rw [texts_finish]; rfl, by simp⟩
  | @cons piece rest _ hl _ _ ih =>
      obtain ⟨body, ht, hn⟩ := ih (offset + piece.blanks.length + piece.lexeme.length)
      refine ⟨⟨piece.kind, offset + piece.blanks.length⟩ :: body, ?_,
        List.forall_mem_cons.mpr ⟨hl.kind_ne_endOfInput, hn⟩⟩
      rw [tokens, ht, texts_cons]
      simp [Nat.add_assoc]

lemma le_position (pieces : List Piece) (offset : Nat) :
    ∀ token ∈ tokens offset pieces, offset ≤ token.position := by
  induction pieces generalizing offset with
  | nil => simp [tokens]
  | cons piece rest ih =>
      refine List.forall_mem_cons.mpr ⟨Nat.le_add_right _ _, fun token ht => ?_⟩
      have := ih _ token ht
      omega

/-- Each token of a cut stands further on than the ones before it. -/
lemma pairwise_position (h : IsCut pieces) (offset : Nat) :
    ((tokens offset pieces).map Token.position).Pairwise (· < ·) := by
  induction h generalizing offset with
  | finish _ => exact List.pairwise_singleton _ _
  | @cons piece rest _ hl _ _ ih =>
      rw [tokens, List.map_cons]
      refine List.pairwise_cons.mpr ⟨List.forall_mem_map.mpr fun token ht => ?_, ih _⟩
      have hle := le_position rest _ token ht
      have hpos : 0 < piece.lexeme.length := by
        obtain ⟨first, more, hm, -⟩ := hl.exists_cons
        rw [hm]
        exact Nat.succ_pos _
      show offset + piece.blanks.length < token.position
      omega

end Piece

/-- The characters in front of the first one that a text may not hold are settled. -/
lemma eq_of_append_cons_eq {α : Type} {P : α → Prop} {before other after tail : List α} {c d : α}
    (h : before ++ c :: after = other ++ d :: tail) (hb : ∀ x ∈ before, P x)
    (ho : ∀ x ∈ other, P x) (hc : ¬ P c) (hd : ¬ P d) : before = other ∧ c = d := by
  induction before generalizing other with
  | nil =>
      cases other with
      | nil => exact ⟨rfl, (List.cons.inj h).1⟩
      | cons x other =>
          obtain ⟨rfl, -⟩ := List.cons.inj h
          exact absurd (ho c List.mem_cons_self) hc
  | cons x before ih =>
      cases other with
      | nil =>
          obtain ⟨rfl, -⟩ := List.cons.inj h
          exact absurd (hb x List.mem_cons_self) hd
      | cons y other =>
          obtain ⟨rfl, ht⟩ := List.cons.inj h
          obtain ⟨rfl, rfl⟩ := ih ht (fun z hz => hb z (List.mem_cons_of_mem _ hz))
            fun z hz => ho z (List.mem_cons_of_mem _ hz)
          exact ⟨rfl, rfl⟩

/-- Where a text has tokens, they are those of a cut of the text. -/
lemma exists_isCut_of_ofText {text : String} {tokens : List Token}
    (h : Token.ofText text = .ok tokens) :
    ∃ pieces, Piece.IsCut pieces ∧ Piece.texts pieces = text.toList
      ∧ Piece.tokens 0 pieces = tokens := by
  rcases Piece.exists_isCut_or_invalid text.toList with ⟨pieces, hc, ht⟩ | ⟨_, _, _, -, -, -, he⟩
  · have hp := Piece.tokens_texts hc 0
    rw [ht] at hp
    exact ⟨pieces, hc, ht, Except.ok.inj (hp.symm.trans h)⟩
  · exact absurd (h.symm.trans (he 0)) (by simp)

/-- Behind the other tokens of a text, which all stand inside it, there is the end of the input. -/
lemma exists_eq_concat_of_ofText {text : String} {tokens : List Token}
    (h : Token.ofText text = .ok tokens) :
    ∃ body, tokens = body ++ [⟨.endOfInput, text.length⟩]
      ∧ ∀ token ∈ body, token.kind ≠ .endOfInput ∧ token.position < text.length := by
  obtain ⟨pieces, hc, ht, rfl⟩ := exists_isCut_of_ofText h
  obtain ⟨body, hb, hn⟩ := Piece.exists_tokens_eq_concat hc 0
  rw [ht, Nat.zero_add, String.length_toList] at hb
  have hp := Piece.pairwise_position hc 0
  rw [hb, List.map_append, List.pairwise_append] at hp
  refine ⟨body, hb, fun token hm => ⟨hn token hm, ?_⟩⟩
  exact hp.2.2 _ (List.mem_map_of_mem hm) _ List.mem_cons_self

/-- **Cutting a text into tokens.** A text has tokens exactly if all of its characters are blanks,
letters, digits and punctuation marks; otherwise the first other character is reported with its
offset. The text is then the text of exactly one cut, in which every lexeme is the longest one at
its place, and the tokens are those of the cut, each at the offset of its lexeme. The end of the
input stands at the end and nowhere else, and each token stands further on than the ones before
it. -/
theorem ofText_cut (text : String) :
    ((∃ tokens, Token.ofText text = .ok tokens) ↔ ∀ c ∈ text.toList, IsTextual c)
    ∧ (∀ before c after, text.toList = before ++ c :: after → (∀ d ∈ before, IsTextual d) →
        ¬ IsTextual c → Token.ofText text = .error (.invalidCharacter c before.length))
    ∧ ∀ tokens, Token.ofText text = .ok tokens →
        (∃! pieces, Piece.IsCut pieces ∧ Piece.texts pieces = text.toList)
        ∧ (∀ pieces, Piece.IsCut pieces → Piece.texts pieces = text.toList →
          Piece.tokens 0 pieces = tokens)
        ∧ (∃ body, tokens = body ++ [⟨.endOfInput, text.length⟩]
          ∧ ∀ token ∈ body, token.kind ≠ .endOfInput)
        ∧ (tokens.map Token.position).Pairwise (· < ·) := by
  have hcut : ∀ pieces, Piece.IsCut pieces → Piece.texts pieces = text.toList →
      Token.ofText text = .ok (Piece.tokens 0 pieces) := by
    intro pieces hc ht
    rw [Token.ofText, Cursor.start, ← ht, Piece.tokens_texts hc]
  refine ⟨⟨?_, ?_⟩, ?_, ?_⟩
  · rintro ⟨tokens, h⟩
    obtain ⟨pieces, hc, ht, -⟩ := exists_isCut_of_ofText h
    exact ht ▸ hc.isTextual
  · intro h
    rcases Piece.exists_isCut_or_invalid text.toList with
      ⟨pieces, hc, ht⟩ | ⟨before, c, after, hs, -, hc, -⟩
    · exact ⟨_, hcut pieces hc ht⟩
    · exact absurd (h c (by simp [hs])) hc
  · intro before c after hs hb hc
    rcases Piece.exists_isCut_or_invalid text.toList with
      ⟨pieces, hp, ht⟩ | ⟨before', c', after', hs', hb', hc', he⟩
    · exact absurd (hp.isTextual c (by simp [ht, hs])) hc
    · obtain ⟨rfl, rfl⟩ := eq_of_append_cons_eq (hs.symm.trans hs') hb hb' hc hc'
      rw [Token.ofText, Cursor.start, he, Nat.zero_add]
  · intro tokens h
    obtain ⟨pieces, hc, ht, rfl⟩ := exists_isCut_of_ofText h
    have hone : ∀ other, Piece.IsCut other → Piece.texts other = text.toList → other = pieces :=
      fun other ho hto => ho.eq_of_texts_eq hc (hto.trans ht.symm)
    obtain ⟨body, hb, hn⟩ := exists_eq_concat_of_ofText h
    refine ⟨⟨pieces, ⟨hc, ht⟩, fun other ho => hone other ho.1 ho.2⟩, fun other ho hto => ?_,
      ⟨body, hb, fun token hm => (hn token hm).1⟩, Piece.pairwise_position hc 0⟩
    rw [hone other ho hto]

end Reshape
