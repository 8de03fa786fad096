import Mathlib.Data.List.TakeWhile
import Reshape.Text.Blank
import Reshape.Token.Lexeme

/-!
The kinds of tokens whose text reads back.

* `IsWord`: a text is a letter and the letters and digits that follow it.
* `Number.ofText_text`: the text of a natural number below `2^63` reads back as that integer.
* `Token.Kind.IsLegible`: the kinds of tokens that a text can hold.
* `Token.Kind.Continues`: the characters that would make the text of a kind longer.
* `lexemeIs_text`: the text of a legible kind is the lexeme at the front of an input, unless the
  rest of the input goes on with such a character.
-/

namespace Reshape

/-! ### Classes of characters -/

/-- Letters by their code points. -/
lemma isAlpha_iff {c : Char} :
    c.isAlpha ↔ (65 ≤ c.toNat ∧ c.toNat ≤ 90) ∨ (97 ≤ c.toNat ∧ c.toNat ≤ 122) := by
  show (decide (65 ≤ c.val ∧ c.val ≤ 90) || (decide (97 ≤ c.val) && decide (c.val ≤ 122)))
    = true ↔ _
  rw [Bool.or_eq_true, Bool.and_eq_true, decide_eq_true_eq, decide_eq_true_eq, decide_eq_true_eq]
  rfl

/-- No letter or digit is blank. -/
lemma isBlank_eq_false_of_isAlphanum {c : Char} (h : c.isAlphanum) : isBlank c = false := by
  have hn : (48 ≤ c.toNat ∧ c.toNat ≤ 57) ∨ (65 ≤ c.toNat ∧ c.toNat ≤ 90)
      ∨ (97 ≤ c.toNat ∧ c.toNat ≤ 122) := by
    rcases Bool.or_eq_true_iff.mp h with h | h
    · exact .inr (isAlpha_iff.mp h)
    · exact .inl (Char.isDigit_iff_toNat.mp h)
  simp only [isBlank, Bool.or_eq_false_iff, Bool.and_eq_false_iff, decide_eq_false_iff_not]
  omega

lemma punctuation?_cases {c : Char} {kind : Token.Kind} (h : punctuation? c = some kind) :
    c = '.' ∨ c = '$' ∨ c = '>' ∨ c = '#' ∨ c = ':' ∨ c = ';' := by
  unfold punctuation? at h
  split at h <;> simp_all

lemma isBlank_eq_false_of_punctuation? {c : Char} {kind : Token.Kind}
    (h : punctuation? c = some kind) : isBlank c = false := by
  rcases punctuation?_cases h with rfl | rfl | rfl | rfl | rfl | rfl <;> rfl

lemma not_isAlphanum_of_punctuation? {c : Char} {kind : Token.Kind}
    (h : punctuation? c = some kind) : c.isAlpha = false ∧ c.isDigit = false := by
  rcases punctuation?_cases h with rfl | rfl | rfl | rfl | rfl | rfl <;> exact ⟨rfl, rfl⟩

/-- A digit is no letter. -/
lemma isAlpha_eq_false_of_isDigit {c : Char} (h : c.isDigit) : c.isAlpha = false := by
  have hd : 48 ≤ c.toNat ∧ c.toNat ≤ 57 := Char.isDigit_iff_toNat.mp h
  rw [Bool.eq_false_iff]
  intro ha
  have := isAlpha_iff.mp ha
  omega

/-- A run of characters of one class ends where the next character is of another class. -/
lemma takeWhile_append_of_stop {p : Char → Bool} {run rest : List Char} (h : ∀ c ∈ run, p c)
    (hs : ∀ c ∈ rest.head?, p c = false) :
    (run ++ rest).takeWhile p = run ∧ (run ++ rest).dropWhile p = rest := by
  rw [List.takeWhile_append_of_pos h, List.dropWhile_append_of_pos h]
  cases rest with
  | nil => simp
  | cons c rest =>
      have hc : ¬ p c := by simpa using hs c rfl
      rw [List.takeWhile_cons_of_neg hc, List.dropWhile_cons_of_neg hc, List.append_nil]
      exact ⟨rfl, rfl⟩

/-! ### Numbers -/

/-- The digits of a natural number below `2^63` spell that integer. -/
lemma ofText_toDigits {n : Nat} (h : n < 0x8000000000000000) :
    Number.ofText (Nat.toDigits 10 n) = .integer (Int64.ofNat n) := by
  have hd : ∀ c ∈ Nat.toDigits 10 n, c.isDigit := fun c hc =>
    Nat.isDigit_of_mem_toDigits (by decide) (by decide) hc
  have hn : Numeral.ofText (Nat.toDigits 10 n) = ⟨Nat.toDigits 10 n, []⟩ := by
    rw [Numeral.ofText, List.takeWhile_eq_self_iff.mpr hd, List.dropWhile_eq_nil_iff.mpr hd]
    rfl
  have hc : Numeral.coefficient ⟨Nat.toDigits 10 n, []⟩ = n := by
    rw [Numeral.coefficient, List.append_nil, Nat.ofDigitChars_ten_toDigits]
  have hi : Numeral.integer? ⟨Nat.toDigits 10 n, []⟩ = some (Int64.ofNat n) := by
    have hp : Nat.pow 10 (Numeral.places ⟨Nat.toDigits 10 n, []⟩) = 1 := rfl
    rw [Numeral.integer?, hc, hp, if_pos ⟨Nat.zero_le _, by omega⟩]
    show (if n % 1 = 0 ∧ n / 1 < 0x8000000000000000 then some (Int64.ofNat (n / 1)) else none) = _
    rw [Nat.div_one, if_pos ⟨Nat.mod_one n, by omega⟩]
  rw [Number.ofText, hn, Numeral.toNumber, hi]

lemma Number.toList_text {value : Int64} (h : 0 ≤ value.toInt) :
    (Number.integer value).text.toList = Nat.toDigits 10 value.toInt.natAbs := by
  rw [Number.text, Number.textWith, integerText, if_neg (by omega), Nat.toList_repr]

/-- The text of an integer that is not negative reads back as that integer. -/
lemma Number.ofText_text {value : Int64} (h : 0 ≤ value.toInt) :
    Number.ofText (Number.integer value).text.toList = .integer value := by
  have hb : value.toInt.natAbs < 0x8000000000000000 := by
    have := value.toInt_lt
    omega
  have hv : Int64.ofNat value.toInt.natAbs = value := by
    rw [← Int64.ofInt_eq_ofNat, Int.natAbs_of_nonneg h, Int64.ofInt_toInt]
  rw [Number.toList_text h, ofText_toDigits hb, hv]

/-! ### Legible kinds -/

/-- The text is a letter and letters and digits behind it. -/
def IsWord (text : String) : Prop :=
  ∃ first more, text.toList = first :: more ∧ first.isAlpha ∧ ∀ c ∈ more, c.isAlphanum

namespace Token.Kind

/-- A text can hold a token of this kind: a name is a word, and a number is an integer that is not
negative. -/
def IsLegible : Token.Kind → Prop
  | .identifier text => IsWord text
  | .number (.integer value) => 0 ≤ value.toInt
  | .number (.float _) => False
  | .endOfInput => False
  | _ => True

/-- The text of a token of this kind gets longer when the character stands behind it. -/
def Continues : Token.Kind → Char → Bool
  | .identifier _, c => c.isAlphanum
  | .number _, c => c.isDigit || c = '.'
  | _, _ => false

/-- The lexeme at the front of an input is a given one, which is of a given kind and does not begin
with a blank. -/
structure LexemeIs (kind : Token.Kind) (text input : List Char) : Prop where
  /-- The lexeme at the front of the input. -/
  lexeme_eq : lexeme input = text
  /-- Its first character settles the kind. -/
  kind_eq : ∃ first more, text = first :: more ∧ isBlank first = false
    ∧ lexemeKind? first more = some kind

lemma lexemeIs_identifier {text : String} (h : IsWord text) {rest : List Char}
    (hs : ∀ c ∈ rest.head?, c.isAlphanum = false) :
    LexemeIs (.identifier text) text.toList (text.toList ++ rest) := by
  obtain ⟨first, more, ht, hf, hm⟩ := h
  have ha : first.isAlphanum := by rw [Char.isAlphanum, hf, Bool.true_or]
  refine ⟨?_, first, more, ht, isBlank_eq_false_of_isAlphanum ha, ?_⟩
  · rw [ht, List.cons_append, lexeme, if_pos hf, (takeWhile_append_of_stop hm hs).1]
  · rw [lexemeKind?, if_pos hf, ← ht, String.ofList_toList]

lemma lexemeIs_number {value : Int64} (h : 0 ≤ value.toInt) {rest : List Char}
    (hs : ∀ c ∈ rest.head?, (c.isDigit || c = '.') = false) :
    LexemeIs (.number (.integer value)) (Number.integer value).text.toList
      ((Number.integer value).text.toList ++ rest) := by
  have hv := Number.ofText_text h
  rw [Number.toList_text h] at hv ⊢
  have hd : ∀ c ∈ Nat.toDigits 10 value.toInt.natAbs, c.isDigit := fun c hc =>
    Nat.isDigit_of_mem_toDigits (by decide) (by decide) hc
  have hs' : ∀ c ∈ rest.head?, c.isDigit = false := fun c hc =>
    (Bool.or_eq_false_iff.mp (hs c hc)).1
  obtain ⟨hw, hr⟩ := takeWhile_append_of_stop hd hs'
  obtain ⟨first, more, hf⟩ := List.exists_cons_of_ne_nil
    (List.ne_nil_of_length_pos (Nat.length_toDigits_pos (b := 10) (n := value.toInt.natAbs)))
  rw [hf] at hd hv hw hr ⊢
  have h1 : first.isDigit := hd first List.mem_cons_self
  have h2 := isAlpha_eq_false_of_isDigit h1
  have ha : first.isAlphanum := by rw [Char.isAlphanum, h1, Bool.or_true]
  refine ⟨?_, first, more, rfl, isBlank_eq_false_of_isAlphanum ha, ?_⟩
  · rw [List.cons_append, lexeme, if_neg (by simp [h2]), if_pos h1, numeralLexeme,
      ← List.cons_append, hw, hr]
    -- the rest does not begin with a point
    cases rest with
    | nil => rfl
    | cons c rest =>
        have hc : c ≠ '.' := by
          rintro rfl
          exact absurd (hs '.' rfl) (by decide)
        split
        · next h => exact absurd (List.cons.inj h).1 hc
        · rfl
  · rw [lexemeKind?, if_neg (by simp [h2]), if_pos h1, hv]

lemma lexemeIs_punctuation {c : Char} {kind : Token.Kind} (h : punctuation? c = some kind)
    (rest : List Char) : LexemeIs kind [c] ([c] ++ rest) := by
  obtain ⟨ha, hd⟩ := not_isAlphanum_of_punctuation? h
  refine ⟨?_, c, [], rfl, isBlank_eq_false_of_punctuation? h, ?_⟩
  · rw [List.singleton_append, lexeme, if_neg (by simp [ha]), if_neg (by simp [hd])]
  · rw [lexemeKind?, if_neg (by simp [ha]), if_neg (by simp [hd]), h]

/-- The text of a legible kind is the lexeme at the front of an input that goes on with a character
of another class. -/
lemma lexemeIs_text {kind : Token.Kind} (h : kind.IsLegible) {rest : List Char}
    (hs : ∀ c ∈ rest.head?, kind.Continues c = false) :
    LexemeIs kind kind.text.toList (kind.text.toList ++ rest) := by
  cases kind with
  | identifier text => exact lexemeIs_identifier h hs
  | number value =>
      cases value with
      | integer value => exact lexemeIs_number h hs
      | float value => exact h.elim
  | endOfInput => exact h.elim
  | dot => exact lexemeIs_punctuation rfl rest
  | dollar => exact lexemeIs_punctuation rfl rest
  | arrow => exact lexemeIs_punctuation rfl rest
  | hash => exact lexemeIs_punctuation rfl rest
  | colon => exact lexemeIs_punctuation rfl rest
  | semicolon => exact lexemeIs_punctuation rfl rest

end Token.Kind

end Reshape
