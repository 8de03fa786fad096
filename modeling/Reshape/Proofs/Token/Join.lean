import Mathlib.Data.List.Basic
import Reshape.Proofs.Token.Cut

/-!
Two texts with a separator between them.

* `IsCut.exists_concat`: a cut is a row of lexemes with blanks in front, and then more blanks.
* `IsCut.join`: the cuts of two texts make a cut of the text with a separator between them.
* `filter_texts`: the characters of a cut that are no blanks are those of its lexemes.
* `Token.IsBody`: the tokens of a text in front of the end of the input.
* `isBody_join_iff`: those of two texts with a separator between them are the ones of the first
  text, the separator, and the ones of the second text, moved behind it.
* `getLast?_eq_semicolon_iff`: the last of these tokens is a separator exactly if the last character
  that is no blank is one.
-/

namespace Reshape

variable {text rest : List Char} {kind : Token.Kind}

/-! ### Separators and lexemes -/

/-- A separator is a lexeme, and the longest one, whatever stands behind it. -/
lemma isLexeme_semicolon (rest : List Char) :
    IsLexeme [';'] .semicolon ∧ IsLongest [';'] ([';'] ++ rest) :=
  lexemeIs_iff.mp (Token.Kind.lexemeIs_punctuation rfl rest)

/-- No other lexeme holds a separator. -/
lemma IsLexeme.eq_of_mem (h : IsLexeme text kind) (hm : ';' ∈ text) : text = [';'] := by
  have hdigit : ∀ {digits : List Char}, (∀ d ∈ digits, d.isDigit) → ';' ∉ digits :=
    fun hd hm => absurd (hd _ hm) (by decide)
  cases h with
  | punctuation _ => rw [List.mem_singleton.mp hm]
  | identifier hc hr =>
      rcases List.mem_cons.mp hm with rfl | hm
      · exact absurd hc (by decide)
      · exact absurd (hr _ hm) (by decide)
  | whole _ hd => exact absurd hm (hdigit hd)
  | decimal _ hd hf =>
      rcases List.mem_cons.mp ((List.mem_append.mp hm).resolve_left (hdigit hd)) with hm | hm
      · exact absurd hm (by decide)
      · exact absurd hm (hdigit hf)

lemma IsLexeme.ne_nil (h : IsLexeme text kind) : text ≠ [] := by
  obtain ⟨first, more, rfl, -⟩ := h.exists_cons
  exact List.cons_ne_nil first more

/-- A lexeme ends in a separator exactly if it is one. -/
lemma IsLexeme.getLast?_eq_iff (h : IsLexeme text kind) :
    text.getLast? = some ';' ↔ kind = .semicolon := by
  refine ⟨fun hl => ?_, ?_⟩
  · obtain rfl := h.eq_of_mem (List.mem_of_getLast? hl)
    exact h.kind_eq (isLexeme_semicolon []).1
  · rintro rfl
    cases h with
    | @punctuation c _ hp =>
        unfold punctuation? at hp
        split at hp <;> simp at hp ⊢

/-- The longest lexeme stays the longest one when more input follows, if no longer lexeme holds the
first character of that. -/
lemma IsLongest.append_of_not_mem {behind : List Char} (h : IsLongest text (text ++ rest))
    (hb : ∀ c ∈ behind.head?, ∀ (longer : List Char) (other : Token.Kind),
      text.length < longer.length → IsLexeme longer other → c ∉ longer) :
    IsLongest text (text ++ (rest ++ behind)) := by
  intro longer other hlt hp ho
  rw [← List.append_assoc] at hp
  have hn : ¬ longer <+: text ++ rest := fun hp => h longer other hlt hp ho
  -- a longer lexeme would reach what follows
  obtain hp' | ⟨tail, rfl⟩ :=
    List.prefix_or_prefix_of_prefix hp (List.prefix_append (text ++ rest) _)
  · exact hn hp'
  · rw [List.prefix_append_right_inj] at hp
    cases tail with
    | nil => exact hn ⟨[], by simp⟩
    | cons c tail =>
        obtain ⟨more, rfl⟩ := hp
        exact hb c rfl _ other hlt ho (by simp)

/-- The longest lexeme stays the longest one when a separator follows the input. -/
lemma IsLongest.append (h : IsLongest text (text ++ rest)) (hl : IsLexeme text kind)
    (more : List Char) : IsLongest text (text ++ (rest ++ ';' :: more)) := by
  refine h.append_of_not_mem ?_
  rintro c hc longer other hlt ho hm
  cases hc
  rw [ho.eq_of_mem hm, List.length_singleton, Nat.lt_one_iff, List.length_eq_zero_iff] at hlt
  exact hl.ne_nil hlt

/-- A lexeme holds no blanks. -/
lemma IsLexeme.isBlank_eq_false (h : IsLexeme text kind) : ∀ c ∈ text, isBlank c = false := by
  have hdigit : ∀ {digits : List Char}, (∀ d ∈ digits, d.isDigit) →
      ∀ c ∈ digits, isBlank c = false := fun hd c hc =>
    isBlank_eq_false_of_isAlphanum (by rw [Char.isAlphanum, hd c hc, Bool.or_true])
  cases h with
  | punctuation hp => exact List.forall_mem_singleton.mpr (isBlank_eq_false_of_punctuation? hp)
  | identifier hc hr =>
      refine List.forall_mem_cons.mpr ⟨isBlank_eq_false_of_isAlphanum ?_, fun c hm =>
        isBlank_eq_false_of_isAlphanum (hr c hm)⟩
      rw [Char.isAlphanum, hc, Bool.true_or]
  | whole _ hd => exact hdigit hd
  | decimal _ hd hf =>
      exact List.forall_mem_append.mpr ⟨hdigit hd, List.forall_mem_cons.mpr ⟨rfl, hdigit hf⟩⟩

/-! ### Pieces in a row -/

/-- A token further on in the text. -/
def Token.shift (count : Nat) (token : Token) : Token :=
  ⟨token.kind, token.position + count⟩

namespace Piece

variable {piece : Piece} {pieces own second : List Piece} {blanks : List Char}

lemma texts_append (own more : List Piece) : texts (own ++ more) = texts own ++ texts more :=
  List.flatMap_append

lemma tokens_append (offset : Nat) (own more : List Piece) :
    tokens offset (own ++ more) =
      tokens offset own ++ tokens (offset + (texts own).length) more := by
  induction own generalizing offset with
  | nil => rfl
  | cons piece own ih =>
      rw [List.cons_append, tokens, tokens, ih, texts_cons]
      simp only [List.length_append, Nat.add_assoc, List.cons_append]

lemma tokens_shift (offset count : Nat) (pieces : List Piece) :
    tokens (offset + count) pieces = (tokens offset pieces).map (Token.shift count) := by
  induction pieces generalizing offset with
  | nil => rfl
  | cons piece rest ih =>
      rw [tokens, tokens, List.map_cons, ← ih, Token.shift]
      simp only [Nat.add_right_comm _ _ count]

lemma map_kind_tokens (offset : Nat) (pieces : List Piece) :
    (tokens offset pieces).map Token.kind = pieces.map Piece.kind := by
  induction pieces generalizing offset with
  | nil => rfl
  | cons piece rest ih => rw [tokens, List.map_cons, List.map_cons, ih]

/-- A piece of a cut that is not the last one is a lexeme with blanks in front. -/
lemma IsCut.of_cons (h : IsCut (piece :: pieces)) (hne : pieces ≠ []) :
    (∀ c ∈ piece.blanks, isBlank c) ∧ IsLexeme piece.lexeme piece.kind
      ∧ IsLongest piece.lexeme (piece.lexeme ++ texts pieces) ∧ IsCut pieces := by
  cases h with
  | finish _ => exact absurd rfl hne
  | cons hb hl hlong hc => exact ⟨hb, hl, hlong, hc⟩

/-- A cut is a row of lexemes with blanks in front, and more blanks behind them. -/
lemma IsCut.exists_concat (h : IsCut pieces) :
    ∃ own blanks, pieces = own ++ [⟨blanks, [], .endOfInput⟩] ∧ (∀ c ∈ blanks, isBlank c)
      ∧ ∀ piece ∈ own, (∀ c ∈ piece.blanks, isBlank c) ∧ IsLexeme piece.lexeme piece.kind := by
  induction h with
  | @finish blanks hb => exact ⟨[], blanks, rfl, hb, by simp⟩
  | @cons piece _ hb hl _ _ ih =>
      obtain ⟨own, blanks, rfl, hbs, ho⟩ := ih
      exact ⟨piece :: own, blanks, rfl, hbs, List.forall_mem_cons.mpr ⟨⟨hb, hl⟩, ho⟩⟩

/-- The cuts of two texts make a cut of the text with a separator between them. -/
lemma IsCut.join (h : IsCut (own ++ [⟨blanks, [], .endOfInput⟩])) (hs : IsCut second) :
    IsCut (own ++ ⟨blanks, [';'], .semicolon⟩ :: second) := by
  induction own with
  | nil =>
      obtain ⟨hl, hlong⟩ := isLexeme_semicolon (texts second)
      cases h with
      | finish hb => exact .cons hb hl hlong hs
      | cons _ hl _ _ => exact absurd rfl hl.kind_ne_endOfInput
  | cons piece own ih =>
      rw [List.cons_append] at h ⊢
      obtain ⟨hb, hl, hlong, hc⟩ := h.of_cons (by simp)
      refine .cons hb hl ?_ (ih hc)
      rw [texts_append, texts_finish] at hlong
      have ht : texts (own ++ ⟨blanks, [';'], .semicolon⟩ :: second) =
          texts own ++ blanks ++ ';' :: texts second := by
        rw [texts_append, texts_cons, List.append_assoc]
        rfl
      rw [ht]
      exact hlong.append hl _

/-- The characters of a cut that are no blanks are those of its lexemes. -/
lemma filter_texts (hb : ∀ c ∈ blanks, isBlank c)
    (ho : ∀ piece ∈ own, (∀ c ∈ piece.blanks, isBlank c) ∧ IsLexeme piece.lexeme piece.kind) :
    (texts (own ++ [⟨blanks, [], .endOfInput⟩])).filter (!isBlank ·) =
      own.flatMap Piece.lexeme := by
  have hnone : ∀ {blanks : List Char}, (∀ c ∈ blanks, isBlank c) →
      blanks.filter (!isBlank ·) = [] := by
    intro blanks hb
    rw [List.filter_eq_nil_iff]
    simpa using hb
  induction own with
  | nil => rw [List.nil_append, texts_finish, hnone hb, List.flatMap_nil]
  | cons piece own ih =>
      obtain ⟨⟨hp, hl⟩, ho⟩ := List.forall_mem_cons.mp ho
      have hall : piece.lexeme.filter (!isBlank ·) = piece.lexeme := by
        rw [List.filter_eq_self]
        exact fun c hc => by rw [hl.isBlank_eq_false c hc]; rfl
      rw [List.cons_append, texts_cons, List.filter_append, List.filter_append, hnone hp, hall,
        ih ho, List.nil_append, List.flatMap_cons]

end Piece

/-! ### Texts with a separator between them -/

/-- These are the tokens of the text in front of the end of the input. -/
def Token.IsBody (text : String) (body : List Token) : Prop :=
  Token.ofText text = .ok (body ++ [⟨.endOfInput, text.length⟩])

section Body

variable {first second text : String} {body tokens : List Token}

/-- The body of a text belongs to the lexemes of a cut. -/
lemma isBody_iff :
    Token.IsBody text body ↔ ∃ own blanks, Piece.IsCut (own ++ [⟨blanks, [], .endOfInput⟩])
      ∧ Piece.texts own ++ blanks = text.toList ∧ Piece.tokens 0 own = body := by
  have htexts : ∀ (own : List Piece) (blanks : List Char),
      Piece.texts (own ++ [⟨blanks, [], .endOfInput⟩]) = Piece.texts own ++ blanks :=
    fun own blanks => by rw [Piece.texts_append, Piece.texts_finish]
  have htokens : ∀ {own : List Piece} {blanks : List Char},
      Piece.texts own ++ blanks = text.toList →
      Piece.tokens 0 (own ++ [⟨blanks, [], .endOfInput⟩]) =
        Piece.tokens 0 own ++ [⟨.endOfInput, text.length⟩] := by
    intro own blanks ht
    rw [Piece.tokens_append, ← String.length_toList, ← ht, List.length_append, Nat.zero_add]
    rfl
  refine ⟨fun h => ?_, ?_⟩
  · obtain ⟨pieces, hc, ht, hp⟩ := exists_isCut_of_ofText h
    obtain ⟨own, blanks, rfl, -, -⟩ := hc.exists_concat
    rw [htexts] at ht
    rw [htokens ht] at hp
    exact ⟨own, blanks, hc, ht, List.append_cancel_right hp⟩
  · rintro ⟨own, blanks, hc, ht, rfl⟩
    rw [Token.IsBody, Token.ofText, Cursor.start, ← ht, ← htexts, Piece.tokens_texts hc, htokens ht]

/-- Every text without a character that it may not hold has a body. -/
lemma exists_isBody (h : ∀ c ∈ text.toList, IsTextual c) : ∃ body, Token.IsBody text body := by
  rcases Piece.exists_isCut_or_invalid text.toList with ⟨pieces, hc, ht⟩ | ⟨_, c, _, hs, -, hc, -⟩
  · obtain ⟨own, blanks, rfl, -, -⟩ := hc.exists_concat
    rw [Piece.texts_append, Piece.texts_finish] at ht
    exact ⟨_, isBody_iff.mpr ⟨own, blanks, hc, ht, rfl⟩⟩
  · exact absurd (h c (by simp [hs])) hc

lemma Token.IsBody.isTextual (h : Token.IsBody text body) : ∀ c ∈ text.toList, IsTextual c := by
  obtain ⟨pieces, hc, ht, -⟩ := exists_isCut_of_ofText h
  exact ht ▸ hc.isTextual

lemma Token.IsBody.eq {other : List Token} (h : Token.IsBody text body)
    (ho : Token.IsBody text other) : body = other :=
  List.append_cancel_right (Except.ok.inj (h.symm.trans ho))

lemma toList_join (first second : String) :
    (first ++ ";" ++ second).toList = first.toList ++ ';' :: second.toList := by
  simp

/-- The tokens of two texts stand on both sides of the separator. -/
lemma isBody_join {more : List Token} (hf : Token.IsBody first body)
    (hs : Token.IsBody second more) :
    Token.IsBody (first ++ ";" ++ second)
      (body ++ ⟨.semicolon, first.length⟩ :: more.map (Token.shift (first.length + 1))) := by
  obtain ⟨own, blanks, hc, ht, rfl⟩ := isBody_iff.mp hf
  obtain ⟨own', blanks', hc', ht', rfl⟩ := isBody_iff.mp hs
  have hl : (Piece.texts own).length + blanks.length = first.length := by
    rw [← List.length_append, ht, String.length_toList]
  refine isBody_iff.mpr ⟨own ++ ⟨blanks, [';'], .semicolon⟩ :: own', blanks', ?_, ?_, ?_⟩
  · rw [List.append_assoc]
    exact hc.join hc'
  · rw [toList_join, ← ht, ← ht', Piece.texts_append, Piece.texts_cons]
    simp
  · rw [Piece.tokens_append, Piece.tokens, Nat.zero_add, hl, ← Piece.tokens_shift, Nat.zero_add]
    rfl

/-- **Tokens of joined texts**: a text with a separator in the middle has tokens exactly if both
sides have, and its tokens are those of the first side, the separator, and those of the second side,
moved behind it. -/
lemma isBody_join_iff :
    Token.IsBody (first ++ ";" ++ second) tokens ↔
      ∃ body more, Token.IsBody first body ∧ Token.IsBody second more
        ∧ tokens =
          body ++ ⟨.semicolon, first.length⟩ :: more.map (Token.shift (first.length + 1)) := by
  refine ⟨fun h => ?_, ?_⟩
  · have ht := h.isTextual
    rw [toList_join, List.forall_mem_append, List.forall_mem_cons] at ht
    obtain ⟨body, hf⟩ := exists_isBody ht.1
    obtain ⟨more, hs⟩ := exists_isBody ht.2.2
    exact ⟨body, more, hf, hs, h.eq (isBody_join hf hs)⟩
  · rintro ⟨body, more, hf, hs, rfl⟩
    exact isBody_join hf hs

/-! ### The last character that is no blank -/

/-- The characters that are no blanks are those of the lexemes of the tokens. -/
lemma exists_lexemes (h : Token.IsBody text body) :
    ∃ own : List Piece, own.map Piece.kind = body.map Token.kind
      ∧ (∀ piece ∈ own, IsLexeme piece.lexeme piece.kind)
      ∧ text.toList.filter (!isBlank ·) = own.flatMap Piece.lexeme := by
  obtain ⟨pieces, hc, ht, hp⟩ := exists_isCut_of_ofText h
  obtain ⟨own, blanks, rfl, hb, ho⟩ := hc.exists_concat
  refine ⟨own, ?_, fun piece hm => (ho piece hm).2, by rw [← ht, Piece.filter_texts hb ho]⟩
  have hk := congrArg (List.map Token.kind) hp
  rw [Piece.map_kind_tokens, List.map_append, List.map_append] at hk
  exact (List.append_singleton_inj.mp hk).1

/-- A text with a character that is no blank has a token in front of the end of the input. -/
lemma body_ne_nil (h : Token.IsBody text body) (hc : ∃ c ∈ text.toList, isBlank c = false) :
    body ≠ [] := by
  rintro rfl
  obtain ⟨own, hk, -, hf⟩ := exists_lexemes h
  obtain rfl := List.map_eq_nil_iff.mp hk
  obtain ⟨c, hm, hb⟩ := hc
  have hm : c ∈ text.toList.filter (!isBlank ·) := List.mem_filter.mpr ⟨hm, by rw [hb]; rfl⟩
  rw [hf] at hm
  exact absurd hm (by simp)

/-- The last character that is no blank is a separator exactly if the last token is one. -/
lemma getLast?_eq_semicolon_iff (h : Token.IsBody text body) :
    (text.toList.filter (!isBlank ·)).getLast? = some ';' ↔
      (body.map Token.kind).getLast? = some .semicolon := by
  obtain ⟨own, hk, hl, hf⟩ := exists_lexemes h
  rw [hf, ← hk]
  rcases List.eq_nil_or_concat' own with rfl | ⟨before, last, rfl⟩
  · simp
  · have hlast : IsLexeme last.lexeme last.kind := hl last (by simp)
    rw [List.flatMap_append, List.flatMap_singleton, List.getLast?_append_of_ne_nil _ hlast.ne_nil,
      hlast.getLast?_eq_iff]
    simp

end Body

end Reshape
