import Reshape.Proofs.Token.Legible
import Reshape.Token.Spelling

/-!
The lexeme at the front of an input is the longest one.

* `lexeme_prefix`: it is a piece of the input.
* `isLexeme_lexeme`: it is a lexeme of the kind that its first character settles.
* `IsLexeme.prefix_lexeme`: every other lexeme at the front of the input is a piece of it.
* `lexemeIs_iff`: so it is the only text in front that is a lexeme and the longest one.
-/

namespace Reshape

variable {input text rest more : List Char} {kind : Token.Kind}

/-! ### Pieces of the input -/

lemma numeralLexeme_prefix (input : List Char) : numeralLexeme input <+: input := by
  rw [numeralLexeme]
  split
  · next fraction hd =>
      obtain ⟨tail, ht⟩ : fraction.takeWhile Char.isDigit <+: fraction := List.takeWhile_prefix _
      refine ⟨tail, ?_⟩
      rw [List.append_assoc, List.cons_append, ht, ← hd, List.takeWhile_append_dropWhile]
  · exact List.takeWhile_prefix _

lemma lexeme_prefix (input : List Char) : lexeme input <+: input := by
  cases input with
  | nil => exact List.nil_prefix
  | cons c rest =>
      rw [lexeme]
      split_ifs
      · exact (List.prefix_cons_inj c).mpr (List.takeWhile_prefix _)
      · exact numeralLexeme_prefix _
      · exact (List.prefix_cons_inj c).mpr List.nil_prefix

/-! ### Lexemes -/

/-- A lexeme begins with a character that is no blank and settles its kind. -/
lemma IsLexeme.exists_cons (h : IsLexeme text kind) :
    ∃ first more, text = first :: more ∧ isBlank first = false
      ∧ lexemeKind? first more = some kind := by
  have hdigits : ∀ {first : Char} {more : List Char}, first.isDigit →
      isBlank first = false
        ∧ lexemeKind? first more = some (.number (.ofText (first :: more))) := by
    intro first more hf
    refine ⟨isBlank_eq_false_of_isAlphanum (by rw [Char.isAlphanum, hf, Bool.or_true]), ?_⟩
    rw [lexemeKind?, if_neg (by simp [isAlpha_eq_false_of_isDigit hf]), if_pos hf]
  cases h with
  | @punctuation c _ hp =>
      obtain ⟨ha, hd⟩ := not_isAlphanum_of_punctuation? hp
      refine ⟨c, [], rfl, isBlank_eq_false_of_punctuation? hp, ?_⟩
      rw [lexemeKind?, if_neg (by simp [ha]), if_neg (by simp [hd]), hp]
  | @identifier c rest hc hr =>
      refine ⟨c, rest, rfl, isBlank_eq_false_of_isAlphanum (by rw [Char.isAlphanum, hc]; rfl), ?_⟩
      rw [lexemeKind?, if_pos hc]
  | whole hn hd =>
      obtain ⟨first, more, rfl⟩ := List.exists_cons_of_ne_nil hn
      exact ⟨first, more, rfl, hdigits (hd first List.mem_cons_self)⟩
  | @decimal digits fraction hn hd hf =>
      obtain ⟨first, more, rfl⟩ := List.exists_cons_of_ne_nil hn
      exact ⟨first, more ++ '.' :: fraction, rfl, hdigits (hd first List.mem_cons_self)⟩

/-- A text is a lexeme of one kind only. -/
lemma IsLexeme.kind_eq {other : Token.Kind} (h : IsLexeme text kind) (ho : IsLexeme text other) :
    kind = other := by
  obtain ⟨first, more, rfl, -, hk⟩ := h.exists_cons
  obtain ⟨_, _, ht, -, hl⟩ := ho.exists_cons
  obtain ⟨rfl, rfl⟩ := List.cons.inj ht
  exact Option.some.inj (hk.symm.trans hl)

lemma IsLexeme.kind_ne_endOfInput (h : IsLexeme text kind) : kind ≠ .endOfInput := by
  rintro rfl
  cases h with
  | @punctuation c _ hp =>
      unfold punctuation? at hp
      split at hp <;> simp at hp

/-- The digits at the front of an input, with a point and the digits behind it, are a numeral. -/
lemma isLexeme_numeralLexeme {c : Char} (hc : c.isDigit) (rest : List Char) :
    IsLexeme (numeralLexeme (c :: rest)) (.number (.ofText (numeralLexeme (c :: rest)))) := by
  have hn : (c :: rest).takeWhile Char.isDigit ≠ [] := by
    rw [List.takeWhile_cons_of_pos hc]
    exact List.cons_ne_nil c _
  have hd : ∀ {l : List Char}, ∀ d ∈ l.takeWhile Char.isDigit, d.isDigit := by
    intro l d hm
    exact List.mem_takeWhile_imp hm
  rw [numeralLexeme]
  split
  · exact .decimal hn hd hd
  · exact .whole hn hd

/-- The lexeme at the front of an input is a lexeme of the kind that its first character settles. -/
lemma isLexeme_lexeme {first : Char} (h : lexeme input = first :: more)
    (hk : lexemeKind? first more = some kind) : IsLexeme (first :: more) kind := by
  cases input with
  | nil => exact absurd h (by simp [lexeme])
  | cons c rest =>
      rw [lexeme] at h
      split_ifs at h with ha hd
      · obtain ⟨rfl, rfl⟩ := List.cons.inj h
        rw [lexemeKind?, if_pos ha, Option.some.injEq] at hk
        subst hk
        exact .identifier ha fun d hm => List.mem_takeWhile_imp hm
      · obtain ⟨tail, ht⟩ := numeralLexeme_prefix (c :: rest)
        rw [h, List.cons_append] at ht
        obtain ⟨rfl, -⟩ := List.cons.inj ht
        rw [lexemeKind?, if_neg ha, if_pos hd, Option.some.injEq] at hk
        subst hk
        exact h ▸ isLexeme_numeralLexeme hd rest
      · obtain ⟨rfl, rfl⟩ := List.cons.inj h
        rw [lexemeKind?, if_neg ha, if_neg hd] at hk
        exact .punctuation hk

/-! ### The longest lexeme -/

/-- Every lexeme at the front of an input is a piece of the one that is taken. -/
lemma IsLexeme.prefix_lexeme (h : IsLexeme text kind) (rest : List Char) :
    text <+: lexeme (text ++ rest) := by
  have hnumeral : ∀ {first : Char} {more : List Char}, first.isDigit →
      lexeme (first :: more) = numeralLexeme (first :: more) := by
    intro first more hf
    rw [lexeme, if_neg (by simp [isAlpha_eq_false_of_isDigit hf]), if_pos hf]
  cases h with
  | @punctuation c _ hp =>
      exact ⟨[], (Token.Kind.lexemeIs_punctuation hp rest).lexeme_eq.symm⟩
  | @identifier c own hc ho =>
      rw [List.cons_append, lexeme, if_pos hc, List.takeWhile_append_of_pos ho]
      exact (List.prefix_cons_inj c).mpr (List.prefix_append _ _)
  | whole hn hd =>
      obtain ⟨first, own, rfl⟩ := List.exists_cons_of_ne_nil hn
      rw [List.cons_append, hnumeral (hd first List.mem_cons_self), ← List.cons_append,
        numeralLexeme, List.takeWhile_append_of_pos hd]
      split
      · rw [List.append_assoc]
        exact List.prefix_append _ _
      · exact List.prefix_append _ _
  | @decimal digits fraction hn hd hf =>
      obtain ⟨first, own, rfl⟩ := List.exists_cons_of_ne_nil hn
      have hs : ∀ c ∈ ('.' :: (fraction ++ rest)).head?, c.isDigit = false := by
        rintro c hc
        cases hc
        rfl
      obtain ⟨ht, hr⟩ := takeWhile_append_of_stop hd hs
      have hl : lexeme (first :: own ++ '.' :: (fraction ++ rest)) =
          first :: own ++ '.' :: (fraction ++ rest.takeWhile Char.isDigit) := by
        rw [List.cons_append, hnumeral (hd first List.mem_cons_self), ← List.cons_append,
          numeralLexeme, ht, hr, ← List.takeWhile_append_of_pos hf]
        rfl
      simp only [List.append_assoc, List.cons_append] at hl ⊢
      rw [hl]
      exact ⟨rest.takeWhile Char.isDigit, by simp⟩

/-- **The longest lexeme**: the text that is taken from the front of an input is the one that is a
lexeme while no longer piece of the input is one. -/
lemma lexemeIs_iff :
    kind.LexemeIs text (text ++ rest) ↔ IsLexeme text kind ∧ IsLongest text (text ++ rest) := by
  refine ⟨?_, ?_⟩
  · rintro ⟨hl, first, more, rfl, -, hk⟩
    refine ⟨isLexeme_lexeme hl hk, ?_⟩
    rintro longer other hlt ⟨tail, ht⟩ ho
    have hle := (ho.prefix_lexeme tail).length_le
    rw [ht, hl] at hle
    omega
  · rintro ⟨h, hlong⟩
    have hp := h.prefix_lexeme rest
    obtain ⟨first, more, rfl, hb, hk⟩ := h.exists_cons
    refine ⟨?_, first, more, rfl, hb, hk⟩
    obtain ⟨tail, ht⟩ := hp
    rw [List.cons_append] at ht
    -- what is taken begins with the same character, so it is a lexeme as well
    have hs : (lexemeKind? first (more ++ tail)).isSome := by
      have hk' : (lexemeKind? first more).isSome := by rw [hk]; rfl
      rw [lexemeKind?] at hk' ⊢
      split_ifs at hk' ⊢ <;> simp_all
    obtain ⟨other, ho⟩ := Option.isSome_iff_exists.mp hs
    have hl := isLexeme_lexeme ht.symm ho
    have hle : ¬ (first :: more).length < (first :: (more ++ tail)).length := fun hlt =>
      hlong _ other hlt (ht ▸ lexeme_prefix _) hl
    have hn : tail = [] := by
      rw [← List.length_eq_zero_iff]
      simp only [List.length_cons, List.length_append] at hle
      omega
    rw [← ht, hn, List.append_nil]

end Reshape
