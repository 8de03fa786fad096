import Mathlib.Algebra.Field.Rat
import Mathlib.Algebra.GroupWithZero.Basic
import Mathlib.Data.Rat.Cast.Order
import Reshape.Number.Decimals
import Reshape.Proofs.Number.Quantity
import Reshape.Proofs.Number.Rounding
import Reshape.Proofs.Token.Legible

/-!
Which numerals spell integers, and which ones spell infinities.

* `Numeral.ofText_eq` and `Numeral.rdropWhile_eq`: the digits of a numeral are read off its text,
  and without a point at its end this is the shortest text of the numeral.
* `Numeral.value_eq_intCast_iff`: when the value of a numeral is a given integer.
* `ExactDecimals.integer?_eq`: reading by way of exact decimals, whatever they are, comes to
  comparing places and coefficients.
* `ExactDecimals.numerals`: numerals are exact decimals themselves.
* `ofText_classified`: the texts that spell integers, and which ones.
* `Numeral.IsHuge` and `Numeral.toNumber_huge_cases`: the texts that spell an infinity.
-/

namespace Reshape

variable {n : Numeral} {text : List Char}

namespace Numeral

/-! ### Texts of numerals -/

/-- The digits of a numeral are read off its text. -/
lemma ofText_eq (hn : n.IsLegible) (h : n.IsSpelledBy text) : ofText text = n := by
  rcases h with rfl | ⟨hf, rfl⟩
  · have hs : ∀ c ∈ ('.' :: n.fraction).head?, c.isDigit = false := by
      rintro c ⟨⟩
      rfl
    obtain ⟨hw, hr⟩ := takeWhile_append_of_stop hn.whole hs
    rw [ofText, hw, hr]
    rfl
  · rw [ofText, List.takeWhile_eq_self_iff.mpr hn.whole, List.dropWhile_eq_nil_iff.mpr hn.whole,
      List.drop_nil, ← hf]

/-- Nothing is taken away from a text that ends in a digit. -/
lemma rdropWhile_of_isDigit (h : ∀ c ∈ text.getLast?, c.isDigit) :
    text.rdropWhile (· = '.') = text := by
  refine List.rdropWhile_eq_self_iff.mpr fun hne hp => ?_
  have hd := h _ (List.getLast?_eq_getLast_of_ne_nil hne)
  rw [decide_eq_true_eq.mp hp] at hd
  exact absurd hd (by decide)

/-- Without a point at its end, the text of a numeral is the shortest one. -/
lemma rdropWhile_eq (hn : n.IsLegible) (h : n.IsSpelledBy text) :
    text.rdropWhile (· = '.') = n.text := by
  have hlast : ∀ c ∈ n.whole.getLast?, c.isDigit := fun c hc =>
    hn.whole c (List.mem_of_getLast? hc)
  rcases h with rfl | ⟨hf, rfl⟩
  · by_cases hf : n.fraction = []
    · rw [text, if_pos hf, hf, List.rdropWhile_concat_pos _ _ _ (by decide),
        rdropWhile_of_isDigit hlast]
    · rw [text, if_neg hf]
      obtain ⟨last, hl⟩ := Option.ne_none_iff_exists'.mp (List.getLast?_eq_none_iff.not.mpr hf)
      refine rdropWhile_of_isDigit ?_
      rw [List.getLast?_append, List.getLast?_cons_of_ne_nil hf, hl]
      rintro c ⟨⟩
      exact hn.fraction last (List.mem_of_getLast? hl)
  · rw [text, if_pos hf, rdropWhile_of_isDigit hlast]

/-- The shortest text of a numeral is one of its texts. -/
lemma isSpelledBy_text (n : Numeral) : n.IsSpelledBy n.text := by
  by_cases hf : n.fraction = []
  · exact .inr ⟨hf, by rw [text, if_pos hf]⟩
  · exact .inl (by rw [text, if_neg hf])

/-! ### Values -/

/-- The value of a numeral is an integer exactly if the power of its places divides its
coefficient. -/
lemma value_eq_intCast_iff {k : Int} :
    n.value = k ↔ n.coefficient % Nat.pow 10 n.places = 0
      ∧ (n.coefficient / Nat.pow 10 n.places : Int) = k := by
  have hpos : 0 < Nat.pow 10 n.places := Nat.pow_pos (by decide)
  have hne : ((Nat.pow 10 n.places : Nat) : ℚ) ≠ 0 := Nat.cast_ne_zero.mpr (Nat.ne_of_gt hpos)
  rw [value, div_eq_iff hne, Binary64.ediv_eq_iff hpos]
  exact_mod_cast Iff.rfl

/-! ### Integers -/

/-- A numeral that spells no integer spells the nearest double. -/
lemma toNumber_cases (n : Numeral) :
    (∃ i, n.integer? = some i ∧ n.toNumber = .integer i)
    ∨ n.integer? = none ∧ n.toNumber = .float (.ofDecimal false n.coefficient (-n.places)) := by
  rw [toNumber]
  cases n.integer? with
  | none => exact .inr ⟨rfl, rfl⟩
  | some i => exact .inl ⟨i, rfl, rfl⟩

lemma toNumber_eq_integer_iff {i : Int64} : n.toNumber = .integer i ↔ n.integer? = some i := by
  rcases n.toNumber_cases with ⟨j, hj, ht⟩ | ⟨hj, ht⟩
  · rw [hj, ht, Number.integer.injEq, Option.some.injEq]
  · rw [hj, ht]
    exact iff_of_false (by simp) (by simp)

/-- A numeral spells an integer exactly within four limits: of its places, of its coefficient, that
the power of its places divides the coefficient, and of the quotient. -/
lemma integer?_eq_some_iff {i : Int64} :
    n.integer? = some i ↔ n.places ≤ 28 ∧ n.coefficient < 0x1000000000000000000000000
      ∧ Nat.pow 10 n.places ∣ n.coefficient
      ∧ n.coefficient / Nat.pow 10 n.places ≤ 0x7fffffffffffffff
      ∧ Int64.ofNat (n.coefficient / Nat.pow 10 n.places) = i := by
  simp only [integer?, Option.ite_none_right_eq_some, Option.some.injEq, and_assoc,
    Nat.dvd_iff_mod_eq_zero, Nat.le_iff_lt_add_one]

lemma exists_toNumber_eq_integer_iff :
    (∃ i, n.toNumber = .integer i) ↔ n.places ≤ 28 ∧ n.coefficient < 0x1000000000000000000000000
      ∧ Nat.pow 10 n.places ∣ n.coefficient
      ∧ n.coefficient / Nat.pow 10 n.places ≤ 0x7fffffffffffffff := by
  simp only [toNumber_eq_integer_iff, integer?_eq_some_iff, exists_and_left, exists_eq', and_true]

/-- The integer that a numeral spells is its exact value. -/
lemma toInt_of_toNumber {i : Int64} (h : n.toNumber = .integer i) :
    i.toInt = (n.coefficient / Nat.pow 10 n.places : Nat) ∧ (i.toInt : ℚ) = n.value := by
  obtain ⟨-, -, hdvd, hle, rfl⟩ := integer?_eq_some_iff.mp (toNumber_eq_integer_iff.mp h)
  have hi : (Int64.ofNat (n.coefficient / Nat.pow 10 n.places)).toInt =
      (n.coefficient / Nat.pow 10 n.places : Nat) :=
    Int64.toInt_ofNat_of_lt (Nat.lt_of_le_of_lt hle (by decide))
  refine ⟨hi, (value_eq_intCast_iff.mpr ⟨Nat.mod_eq_zero_of_dvd hdvd, ?_⟩).symm⟩
  rw [hi, Int.natCast_ediv]

end Numeral

/-! ### Exact decimals -/

namespace ExactDecimals

variable (D : ExactDecimals)

/-- Reading by way of exact decimals, whatever they are, comes to comparing places and
coefficients. -/
lemma integer?_eq (hn : n.IsLegible) (h : n.IsSpelledBy text) : D.integer? text = n.integer? := by
  have hsome := D.isSome_ofText?_iff n hn
  rw [integer?, Numeral.rdropWhile_eq hn h]
  cases hd : D.ofText? n.text with
  | none =>
      rw [hd, Option.isSome_none, Bool.false_eq_true, false_iff] at hsome
      rw [Numeral.integer?, if_neg hsome]
      rfl
  | some d =>
      have hlimits := hsome.mp (by rw [hd]; rfl)
      have hv := D.value_eq n d hn hd
      rw [Numeral.integer?, if_pos hlimits, Option.filter_some]
      dsimp only
      by_cases hk : ∃ k : Int, D.value d = k
      · rw [if_pos ((D.isInteger_iff d).mpr hk), Option.bind_some]
        obtain ⟨k, hk⟩ := hk
        obtain ⟨hmod, hdiv⟩ := Numeral.value_eq_intCast_iff.mp (hv.symm.trans hk)
        obtain rfl : k = (n.coefficient / Nat.pow 10 n.places : Nat) := by
          rw [← hdiv, Int.natCast_ediv]
        rw [D.toInt64?_eq d _ hk, Int64.ofInt_eq_ofNat]
        generalize n.coefficient / Nat.pow 10 n.places = quotient
        exact if_congr (by omega) rfl rfl
      · rw [if_neg ((D.isInteger_iff d).not.mpr hk), Option.bind_none, if_neg]
        rintro ⟨hmod, -⟩
        exact hk ⟨_, hv.trans (Numeral.value_eq_intCast_iff.mpr ⟨hmod, rfl⟩)⟩

lemma number_eq (hn : n.IsLegible) (h : n.IsSpelledBy text) :
    D.number text = Number.ofText text := by
  have hd := D.integer?_eq hn h
  rw [Number.ofText, Numeral.ofText_eq hn h]
  rcases n.toNumber_cases with ⟨i, hi, ht⟩ | ⟨hi, ht⟩
  · rw [ht, number, hd, hi]
  · rw [ht, number, hd, hi, Numeral.ofText_eq hn h]

/-- Numerals as exact decimals. -/
def numerals : ExactDecimals where
  Decimal := Numeral
  value := Numeral.value
  ofText? text :=
    let n := Numeral.ofText text
    if n.places ≤ 28 ∧ n.coefficient < 0x1000000000000000000000000 then some n else none
  isInteger n := n.coefficient % Nat.pow 10 n.places = 0
  toInt64? n :=
    let quotient := n.coefficient / Nat.pow 10 n.places
    if quotient < 0x8000000000000000 then some (Int64.ofNat quotient) else none
  isSome_ofText?_iff n hn := by
    dsimp only
    rw [Numeral.ofText_eq hn n.isSpelledBy_text, Option.isSome_ite]
  value_eq n d hn h := by
    dsimp only at h
    rw [Numeral.ofText_eq hn n.isSpelledBy_text] at h
    rw [Option.some.inj (Option.ite_none_right_eq_some.mp h).2]
  isInteger_iff n := by
    simp only [decide_eq_true_eq, Numeral.value_eq_intCast_iff, exists_and_left, exists_eq',
      and_true]
  toInt64?_eq n k hv := by
    obtain ⟨-, rfl⟩ := Numeral.value_eq_intCast_iff.mp hv
    rw [← Int.natCast_ediv, Int64.ofInt_eq_ofNat]
    generalize n.coefficient / Nat.pow 10 n.places = quotient
    exact if_congr (by omega) rfl rfl

end ExactDecimals

/-! ### Zeros in front -/

namespace Numeral

lemma isDigit_of_mem_replicate_zero {zeros : Nat} {c : Char} (h : c ∈ List.replicate zeros '0') :
    c.isDigit := by
  rw [List.eq_of_mem_replicate h]
  rfl

/-- The numeral with zeros in front. -/
def padded (zeros : Nat) (n : Numeral) : Numeral :=
  ⟨List.replicate zeros '0' ++ n.whole, n.fraction⟩

lemma IsLegible.padded (h : n.IsLegible) (zeros : Nat) : (n.padded zeros).IsLegible where
  whole_ne_nil := List.append_ne_nil_of_right_ne_nil _ h.whole_ne_nil
  whole := List.forall_mem_append.mpr ⟨fun _ hc => isDigit_of_mem_replicate_zero hc, h.whole⟩
  fraction := h.fraction

lemma IsSpelledBy.padded (h : n.IsSpelledBy text) (zeros : Nat) :
    (n.padded zeros).IsSpelledBy (List.replicate zeros '0' ++ text) := by
  rcases h with rfl | ⟨hf, rfl⟩
  · exact .inl (List.append_assoc _ _ _).symm
  · exact .inr ⟨hf, rfl⟩

lemma coefficient_padded (zeros : Nat) : (n.padded zeros).coefficient = n.coefficient := by
  rw [coefficient, coefficient, padded, List.append_assoc, Nat.ofDigitChars_append,
    Nat.ofDigitChars_replicate_zero, Nat.mul_zero]

/-- Zeros in front change neither the coefficient nor the places, and so not the number. -/
lemma toNumber_padded (zeros : Nat) : (n.padded zeros).toNumber = n.toNumber := by
  have hp : (n.padded zeros).places = n.places := rfl
  rw [toNumber, toNumber, integer?, integer?, coefficient_padded, hp]

lemma ofText_zeros (hn : n.IsLegible) (h : n.IsSpelledBy text) (zeros : Nat) :
    Number.ofText (List.replicate zeros '0' ++ text) = Number.ofText text := by
  rw [Number.ofText, Number.ofText, ofText_eq (hn.padded zeros) (h.padded zeros), ofText_eq hn h,
    toNumber_padded]

end Numeral

/-- **Which numerals spell integers.** Take any exact decimals of at most 28 places and 96 bits. The
number of a text of digits, perhaps with a point, is the one that is read by way of them. It is an
integer exactly if the text has at most 28 places and a coefficient of at most 96 bits, the power of
its places divides the coefficient, and the quotient is at most `2^63 - 1`; the integer is that
quotient, and the exact value of the text. Any other such text spells a double, the nearest one.
Zeros in front change nothing, and the text of a natural number below `2^63` spells that number. -/
theorem ofText_classified (D : ExactDecimals) :
    (∀ (n : Numeral) (text : List Char), n.IsLegible → n.IsSpelledBy text →
      D.number text = Number.ofText text
      ∧ ((∃ i, Number.ofText text = .integer i) ↔
        n.places ≤ 28 ∧ n.coefficient < 0x1000000000000000000000000
        ∧ Nat.pow 10 n.places ∣ n.coefficient
        ∧ n.coefficient / Nat.pow 10 n.places ≤ 0x7fffffffffffffff)
      ∧ (∀ i, Number.ofText text = .integer i →
        i.toInt = (n.coefficient / Nat.pow 10 n.places : Nat) ∧ (i.toInt : ℚ) = n.value)
      ∧ ((¬ ∃ i, Number.ofText text = .integer i) →
        Number.ofText text = .float (.ofDecimal false n.coefficient (-n.places)))
      ∧ ∀ zeros, Number.ofText (List.replicate zeros '0' ++ text) = Number.ofText text)
    ∧ ∀ n < 0x8000000000000000, Number.ofText n.repr.toList = .integer (Int64.ofNat n) := by
  refine ⟨fun n text hn h => ?_, fun n hn => by rw [Nat.toList_repr, ofText_toDigits hn]⟩
  have ht : Number.ofText text = n.toNumber := by rw [Number.ofText, Numeral.ofText_eq hn h]
  refine ⟨D.number_eq hn h, ?_, fun i hi => ?_, fun hi => ?_, Numeral.ofText_zeros hn h⟩
  · rw [ht]
    exact Numeral.exists_toNumber_eq_integer_iff
  · exact Numeral.toInt_of_toNumber (ht.symm.trans hi)
  · rw [ht] at hi ⊢
    rcases n.toNumber_cases with ⟨i, -, he⟩ | ⟨-, he⟩
    · exact absurd ⟨i, he⟩ hi
    · exact he

/-- The greatest integer may have nine zeros behind the point. With one zero more, the coefficient
has too many bits. -/
theorem ofText_classified_max :
    (⟨"9223372036854775807".toList, List.replicate 9 '0'⟩ : Numeral).IsLegible
    ∧ (⟨"9223372036854775807".toList, List.replicate 9 '0'⟩ : Numeral).IsSpelledBy
      "9223372036854775807.000000000".toList
    ∧ ExactDecimals.numerals.number "9223372036854775807.000000000".toList =
      .ofText "9223372036854775807.000000000".toList
    ∧ (∃ i, Number.ofText "9223372036854775807.000000000".toList = .integer i)
    ∧ Number.ofText "9223372036854775807.0000000000".toList =
      .float (.ofDecimal false 92233720368547758070000000000 (-10))
    ∧ Number.ofText (Nat.repr 9223372036854775807).toList =
      .integer (Int64.ofNat 9223372036854775807) := by
  have hd : ∀ c ∈ "9223372036854775807".toList, c.isDigit := List.all_eq_true.mp (by decide)
  have hne : "9223372036854775807".toList ≠ [] := by decide
  have hl : ∀ zeros,
      (⟨"9223372036854775807".toList, List.replicate zeros '0'⟩ : Numeral).IsLegible := fun _ =>
    ⟨hne, hd, fun _ hc => Numeral.isDigit_of_mem_replicate_zero hc⟩
  have hs : (⟨"9223372036854775807".toList, List.replicate 9 '0'⟩ : Numeral).IsSpelledBy
      "9223372036854775807.000000000".toList := .inl rfl
  have hs' : (⟨"9223372036854775807".toList, List.replicate 10 '0'⟩ : Numeral).IsSpelledBy
      "9223372036854775807.0000000000".toList := .inl rfl
  obtain ⟨h, hn⟩ := ofText_classified ExactDecimals.numerals
  obtain ⟨hnumber, hi, -⟩ := h _ _ (hl 9) hs
  obtain ⟨-, hi', -, hf, -⟩ := h _ _ (hl 10) hs'
  exact ⟨hl 9, hs, hnumber, hi.mpr (by decide), hf (hi'.not.mpr (by decide)), hn _ (by decide)⟩

/-! ### Infinities -/

namespace Numeral

/-- The value of the numeral is at least half a step above the largest finite double. -/
def IsHuge (n : Numeral) : Prop :=
  (Binary64.limit : ℚ) ≤ n.value

lemma isHuge_iff : n.IsHuge ↔ Binary64.limit * Nat.pow 10 n.places ≤ n.coefficient := by
  have hpos : (0 : ℚ) < (Nat.pow 10 n.places : Nat) := Nat.cast_pos.mpr (Nat.pow_pos (by decide))
  rw [IsHuge, value, le_div_iff₀ hpos, ← Nat.cast_mul, Nat.cast_le]

/-- A huge numeral spells the positive infinity. Any other one spells an integer or a finite
double. -/
lemma toNumber_huge_cases (n : Numeral) :
    n.IsHuge ∧ n.toNumber = .float (.infinity false)
    ∨ ¬ n.IsHuge ∧ ∀ x, n.toNumber = .float x → x.isFinite := by
  rw [isHuge_iff]
  rcases n.toNumber_cases with ⟨i, hi, ht⟩ | ⟨-, ht⟩
  · -- an integer of 64 bits is far below the limit
    refine .inr ⟨fun hl => ?_, by simp [ht]⟩
    obtain ⟨-, -, -, hle, -⟩ := integer?_eq_some_iff.mp hi
    have hq := (Nat.le_div_iff_mul_le (Nat.pow_pos (by decide))).mpr hl
    exact absurd (Binary64.le_limit.trans (hq.trans hle)) (by decide)
  · have hone : Nat.pow 10 0 = 1 := rfl
    have hn : (-(n.places : Int)).toNat = 0 := by omega
    have hp : (- -(n.places : Int)).toNat = n.places := by omega
    have h := Binary64.ofDecimal_cases false n.coefficient (-n.places)
    rw [hn, hp, hone, Nat.mul_one] at h
    rcases h with ⟨hl, m, hm⟩ | ⟨hl, hm⟩
    · refine .inr ⟨Nat.not_le.mpr hl, fun x hx => ?_⟩
      rw [ht, hm, Number.float.injEq] at hx
      rw [← hx]
      rfl
    · exact .inl ⟨hl, ht.trans (congrArg Number.float hm)⟩

end Numeral

end Reshape
