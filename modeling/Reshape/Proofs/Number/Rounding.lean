import Mathlib.Data.Nat.Dist
import Mathlib.Tactic.Common
import Reshape.Number.Rounding
import Reshape.Proofs.Number.Quantity

/-!
Rounding gives the nearest double, or an infinity beyond a known limit.

* `dist_roundDiv_le`: no multiple of the divisor is nearer to a number than the one that is found by
  rounding the quotient.
* `Magnitude.IsNearest`: no magnitude is nearer to a quotient of units, and of two that are as near
  it is the even one. `Magnitude.isNearest_of_nearest?`: so is what `nearest?` gives.
* `Magnitude.nearest?_eq_none_iff`: it gives none exactly from `Binary64.limit` on, which is half a
  step above the largest magnitude.
* `Binary64.ofDecimal_cases` and `Binary64.exists_ofInt_eq_finite`: so the nearest double to a
  decimal is an infinity exactly from the limit on, and integers below it have a finite one.
-/

namespace Reshape

variable {num den k : Nat}

/-! ### Whole numbers -/

lemma roundDiv_le (hd : 0 < den) (h : num ≤ den * k) : roundDiv num den ≤ k := by
  have hr := two_mul_roundDiv_le num hd
  by_contra hk
  have hs : den * (k + 1) ≤ den * roundDiv num den := Nat.mul_le_mul_left den (by omega)
  rw [Nat.mul_add] at hs
  omega

lemma le_roundDiv (hd : 0 < den) (h : den * k ≤ num) : k ≤ roundDiv num den := by
  have hr := le_two_mul_roundDiv num hd
  by_contra hk
  have hs : den * (roundDiv num den + 1) ≤ den * k := Nat.mul_le_mul_left den (by omega)
  rw [Nat.mul_add] at hs
  omega

/-- The nearest whole number is less than half of the divisor away, or even. -/
lemma two_mul_dist_roundDiv_lt (num : Nat) (hd : 0 < den) :
    2 * Nat.dist (den * roundDiv num den) num < den ∨ roundDiv num den % 2 = 0 := by
  by_cases hh : 2 * (num % den) = den
  · exact .inr (roundDiv_even_of_half hh)
  · have hdiv := Nat.div_add_mod num den
    have hmod := Nat.mod_lt num hd
    left
    simp only [roundDiv, Nat.dist]
    split
    · omega
    · rw [if_pos (by omega), Nat.mul_add den]
      omega

/-- No other multiple of the divisor is nearer, and none is as near unless the nearest whole number
is even. -/
lemma dist_roundDiv_le (hd : 0 < den) (k : Nat) :
    Nat.dist (den * roundDiv num den) num ≤ Nat.dist (den * k) num
    ∧ (Nat.dist (den * k) num = Nat.dist (den * roundDiv num den) num →
      k = roundDiv num den ∨ roundDiv num den % 2 = 0) := by
  have hle := two_mul_roundDiv_le num hd
  have hge := le_two_mul_roundDiv num hd
  have heven := two_mul_dist_roundDiv_lt num hd
  rcases Nat.lt_trichotomy k (roundDiv num den) with h | rfl | h
  · have hs : den * k + den ≤ den * roundDiv num den :=
      Nat.mul_le_mul_left den (Nat.succ_le_of_lt h)
    simp only [Nat.dist] at heven ⊢
    exact ⟨by omega, fun he => .inr (heven.resolve_left (by omega))⟩
  · exact ⟨Nat.le_refl _, fun _ => .inl rfl⟩
  · have hs : den * roundDiv num den + den ≤ den * k :=
      Nat.mul_le_mul_left den (Nat.succ_le_of_lt h)
    simp only [Nat.dist] at heven ⊢
    exact ⟨by omega, fun he => .inr (heven.resolve_left (by omega))⟩

/-! ### Magnitudes -/

namespace Magnitude

variable {m n : Magnitude}

/-- The scale at which a quotient of units is rounded. -/
def roundingScale (num den : Nat) : Nat :=
  (num / den).log2 - 52

/-- The divisor that is left of the units at the scale of a quotient. -/
def roundingStep (num den : Nat) : Nat :=
  den * Nat.pow 2 (roundingScale num den)

lemma roundingStep_pos (num : Nat) (hd : 0 < den) : 0 < roundingStep num den :=
  Nat.mul_pos hd (Nat.two_pow_pos _)

lemma roundingStep_le (k : Nat) (h : roundingScale num den ≤ k) :
    roundingStep num den ≤ den * Nat.pow 2 k :=
  Nat.mul_le_mul_left den (Nat.pow_le_pow_right (by decide) h)

lemma roundingStep_eq (k : Nat) (h : roundingScale num den = k + 1) :
    roundingStep num den = 2 * (den * Nat.pow 2 k) := by
  rw [roundingStep, h, Nat.mul_left_comm]
  exact congrArg (den * ·) Nat.pow_succ'

lemma le_roundingStep (k : Nat) (h : k + 1 < roundingScale num den) :
    4 * (den * Nat.pow 2 k) ≤ roundingStep num den := by
  have hpow : Nat.pow 2 (k + 2) = 4 * Nat.pow 2 k := by
    show 2 ^ (k + 2) = 4 * 2 ^ k
    rw [Nat.pow_add, Nat.mul_comm]
  rw [roundingStep, Nat.mul_left_comm, ← hpow]
  exact Nat.mul_le_mul_left den (Nat.pow_le_pow_right (by decide) h)

/-- At the scale of a quotient, the significand has at most 53 bits before rounding. -/
lemma lt_roundingStep_mul (num : Nat) (hd : 0 < den) :
    num < roundingStep num den * 0x20000000000000 := by
  have hlt : num / den < 2 ^ (roundingScale num den + 53) := by
    refine Nat.lt_of_lt_of_le Nat.lt_log2_self (Nat.pow_le_pow_right (by decide) ?_)
    rw [roundingScale]
    omega
  rw [Nat.div_lt_iff_lt_mul hd, Nat.pow_add] at hlt
  calc num < 2 ^ roundingScale num den * 2 ^ 53 * den := hlt
    _ = roundingStep num den * 0x20000000000000 := by
        rw [Nat.mul_comm, ← Nat.mul_assoc]
        rfl

/-- At a scale that is not the least one, the significand has all of its 53 bits. -/
lemma roundingStep_mul_le (num : Nat) (hd : 0 < den) (hs : roundingScale num den ≠ 0) :
    roundingStep num den * 0x10000000000000 ≤ num := by
  have hq : num / den ≠ 0 := by
    intro hq
    rw [roundingScale, hq] at hs
    exact hs rfl
  have hlog : (num / den).log2 = roundingScale num den + 52 := by
    rw [roundingScale] at hs ⊢
    omega
  have hle : 2 ^ (roundingScale num den + 52) ≤ num / den := hlog ▸ Nat.log2_self_le hq
  rw [Nat.le_div_iff_mul_le hd, Nat.pow_add] at hle
  calc roundingStep num den * 0x10000000000000
      = 2 ^ roundingScale num den * 2 ^ 52 * den := by
        rw [Nat.mul_comm _ den, ← Nat.mul_assoc]
        rfl
    _ ≤ num := hle

/-- The rounded significand at the scale of a quotient. -/
def rounded (num den : Nat) : Nat :=
  roundDiv num (roundingStep num den)

lemma rounded_le (num : Nat) (hd : 0 < den) : rounded num den ≤ 0x20000000000000 :=
  roundDiv_le (roundingStep_pos num hd) (Nat.le_of_lt (lt_roundingStep_mul num hd))

lemma le_rounded (hd : 0 < den) (hs : roundingScale num den ≠ 0) :
    0x10000000000000 ≤ rounded num den :=
  le_roundDiv (roundingStep_pos num hd) (roundingStep_mul_le num hd hs)

lemma nearest?_eq (num den : Nat) :
    nearest? num den =
      if rounded num den = 0x20000000000000 then
        ofParts? 0x10000000000000 (roundingScale num den + 1)
      else
        ofParts? (rounded num den) (roundingScale num den) := rfl

lemma ofParts?_eq_some_iff {significand scale : Nat} :
    ofParts? significand scale = some m ↔ m.significand = significand ∧ m.scale = scale := by
  unfold ofParts?
  split
  · next h =>
      rw [Option.some.injEq]
      refine ⟨?_, ?_⟩
      · rintro rfl
        exact ⟨rfl, rfl⟩
      · rintro ⟨rfl, rfl⟩
        rfl
  · next h =>
      refine iff_of_false (by simp) ?_
      rintro ⟨rfl, rfl⟩
      exact h ⟨m.significand_lt, m.scale_le, m.normal⟩

lemma ofParts?_eq_none_iff {significand scale : Nat} (hlt : significand < 0x20000000000000)
    (hn : scale ≠ 0 → 0x10000000000000 ≤ significand) :
    ofParts? significand scale = none ↔ 2045 < scale := by
  unfold ofParts?
  split
  · next h => exact iff_of_false (by simp) (by omega)
  · next h => exact iff_of_true rfl (by omega)

/-! ### The nearest magnitude -/

/-- No magnitude is nearer to `num / den` units, and if another one is as near, this one is even. -/
structure IsNearest (m : Magnitude) (num den : Nat) : Prop where
  /-- No magnitude is nearer. -/
  nearest (n : Magnitude) : Nat.dist (m.units * den) num ≤ Nat.dist (n.units * den) num
  /-- If another one is as near, this one is even. -/
  even (n : Magnitude) : n ≠ m → Nat.dist (n.units * den) num = Nat.dist (m.units * den) num →
    m.significand % 2 = 0

/-- What `nearest?` gives is the rounded significand at the scale of the quotient. It is even if the
rounded significand is. -/
lemma units_of_nearest? (h : nearest? num den = some m) :
    m.units = rounded num den * Nat.pow 2 (roundingScale num den)
    ∧ (rounded num den % 2 = 0 → m.significand % 2 = 0) := by
  rw [nearest?_eq] at h
  split at h
  · next hr =>
      obtain ⟨hm, hs⟩ := ofParts?_eq_some_iff.mp h
      refine ⟨?_, fun _ => by rw [hm]⟩
      rw [units, hm, hs, hr]
      show 0x10000000000000 * 2 ^ (roundingScale num den + 1) = _
      rw [Nat.pow_succ', ← Nat.mul_assoc]
      rfl
  · obtain ⟨hm, hs⟩ := ofParts?_eq_some_iff.mp h
    exact ⟨by rw [units, hm, hs], fun he => hm ▸ he⟩

/-- A magnitude of a scale at least that of the quotient is one of the multiples between which the
rounding chooses. -/
lemma exists_units_mul_eq (hs : roundingScale num den ≤ n.scale) :
    ∃ k, n.units = k * Nat.pow 2 (roundingScale num den) := by
  obtain ⟨d, hd⟩ := Nat.exists_eq_add_of_le hs
  refine ⟨n.significand * 2 ^ d, ?_⟩
  rw [units, hd]
  show n.significand * 2 ^ (roundingScale num den + d) = _ * 2 ^ d * 2 ^ roundingScale num den
  rw [Nat.add_comm, Nat.pow_add, Nat.mul_assoc]

/-- A magnitude of a smaller scale is below the least multiple between which the rounding
chooses. -/
lemma units_lt_of_scale_lt (hs : n.scale < roundingScale num den) :
    n.units < 0x10000000000000 * Nat.pow 2 (roundingScale num den) := by
  obtain ⟨d, hd⟩ := Nat.exists_eq_add_of_lt hs
  have hlt := n.significand_lt
  calc n.units
      = n.significand * 2 ^ n.scale := rfl
    _ < 0x20000000000000 * 2 ^ n.scale :=
        Nat.mul_lt_mul_of_pos_right hlt (Nat.two_pow_pos _)
    _ = 0x10000000000000 * 2 ^ (n.scale + 1) := by
        rw [Nat.pow_succ', ← Nat.mul_assoc]
    _ ≤ 0x10000000000000 * 2 ^ roundingScale num den :=
        Nat.mul_le_mul_left _ (Nat.pow_le_pow_right (by decide) (by omega))

/-- **Rounding gives the nearest magnitude.** -/
lemma isNearest_of_nearest? (hd : 0 < den) (h : nearest? num den = some m) :
    m.IsNearest num den := by
  obtain ⟨hu, heven⟩ := units_of_nearest? h
  have hmul : ∀ k, k * Nat.pow 2 (roundingScale num den) * den = roundingStep num den * k := by
    intro k
    rw [roundingStep, Nat.mul_comm den, Nat.mul_comm k, Nat.mul_assoc, Nat.mul_assoc,
      Nat.mul_comm k]
  have hr : ∀ k, Nat.dist (m.units * den) num ≤ Nat.dist (roundingStep num den * k) num
      ∧ (Nat.dist (roundingStep num den * k) num = Nat.dist (m.units * den) num →
        k = rounded num den ∨ rounded num den % 2 = 0) := by
    intro k
    rw [hu, hmul]
    exact dist_roundDiv_le (roundingStep_pos num hd) k
  -- a magnitude of a smaller scale is farther away than the least multiple
  have hsmall : ∀ n : Magnitude, n.scale < roundingScale num den →
      Nat.dist (m.units * den) num < Nat.dist (n.units * den) num := by
    intro n hs
    have hlt : n.units * den < roundingStep num den * 0x10000000000000 := by
      rw [← hmul]
      exact Nat.mul_lt_mul_of_pos_right (units_lt_of_scale_lt hs) hd
    have hle := roundingStep_mul_le num hd (by omega)
    refine Nat.lt_of_le_of_lt (hr 0x10000000000000).1 ?_
    simp only [Nat.dist]
    omega
  refine ⟨fun n => ?_, fun n hne he => ?_⟩
  · rcases Nat.lt_or_ge n.scale (roundingScale num den) with hs | hs
    · exact Nat.le_of_lt (hsmall n hs)
    · obtain ⟨k, hk⟩ := exists_units_mul_eq hs
      rw [hk, hmul]
      exact (hr k).1
  · rcases Nat.lt_or_ge n.scale (roundingScale num den) with hs | hs
    · exact absurd he (Nat.ne_of_gt (hsmall n hs))
    · obtain ⟨k, hk⟩ := exists_units_mul_eq hs
      rw [hk, hmul] at he
      rcases (hr k).2 he with rfl | hk'
      · exact absurd (eq_of_units_eq (hk.trans hu.symm)) hne
      · exact heven hk'

/-! ### The largest magnitude -/

/-- There is no nearest magnitude exactly if the scale gets too large, be it by rounding up. -/
lemma nearest?_eq_none_iff_scale (hd : 0 < den) :
    nearest? num den = none ↔ 2045 < roundingScale num den
      ∨ roundingScale num den = 2045 ∧ rounded num den = 0x20000000000000 := by
  rw [nearest?_eq]
  split
  · next hr =>
      rw [ofParts?_eq_none_iff (by decide) (fun _ => Nat.le_refl _)]
      omega
  · next hr =>
      rw [ofParts?_eq_none_iff (Nat.lt_of_le_of_ne (rounded_le num hd) hr) (le_rounded hd)]
      omega

/-- A quotient is rounded up to the next scale if it is less than half a step below it. At half a
step, the largest significand is odd. -/
lemma rounded_eq_iff (hd : 0 < den) :
    rounded num den = 0x20000000000000 ↔ roundingStep num den * 0x3fffffffffffff ≤ 2 * num := by
  have hpos := roundingStep_pos num hd
  have hle := rounded_le num hd
  have hr : rounded num den = roundDiv num (roundingStep num den) := rfl
  refine ⟨fun h => ?_, fun h => ?_⟩
  · have hup := two_mul_roundDiv_le num hpos
    rw [← hr, h] at hup
    omega
  · by_contra hne
    have hdown := le_two_mul_roundDiv num hpos
    have heven := two_mul_dist_roundDiv_lt num hpos
    rw [← hr] at hdown heven
    obtain hlt | hlast :
        rounded num den ≤ 0x1ffffffffffffe ∨ rounded num den = 0x1fffffffffffff := by omega
    · have := Nat.mul_le_mul_left (roundingStep num den) hlt
      omega
    · rw [hlast, Nat.dist] at heven
      omega

/-- The point halfway between the last magnitude of scale `k + 1` and the first one of the next
scale, in units. -/
def turn (k : Nat) : Nat :=
  0x3fffffffffffff * Nat.pow 2 k

/-- A quotient is rounded to a scale above `k + 1` exactly from that point on. -/
lemma roundingScale_gt_iff (hd : 0 < den) (k : Nat) :
    (k + 1 < roundingScale num den
      ∨ roundingScale num den = k + 1 ∧ rounded num den = 0x20000000000000) ↔
      turn k * den ≤ num := by
  have hlt := lt_roundingStep_mul num hd
  have hpos : 0 < den * Nat.pow 2 k := Nat.mul_pos hd (Nat.two_pow_pos k)
  rw [turn, Nat.mul_assoc, Nat.mul_comm _ den]
  rcases Nat.lt_trichotomy (roundingScale num den) (k + 1) with hs | hs | hs
  · have hstep := roundingStep_le k (Nat.le_of_lt_succ hs)
    omega
  · have hstep := roundingStep_eq k hs
    rw [rounded_eq_iff hd]
    omega
  · have hstep := le_roundingStep k hs
    have hle := roundingStep_mul_le num hd (Nat.ne_zero_of_lt hs)
    omega

end Magnitude

/-- The least natural number whose nearest double is an infinity: half a step above the largest
finite double. -/
def Binary64.limit : Nat :=
  Nat.pow 2 1024 - Nat.pow 2 970

lemma limit_mul_unitsPerOne : Binary64.limit * unitsPerOne = Magnitude.turn 2044 := by
  decide +kernel

/-- **There is no nearest magnitude** exactly from half a step above the largest magnitude on. -/
lemma Magnitude.nearest?_eq_none_iff (hd : 0 < den) :
    nearest? num den = none ↔ Binary64.limit * unitsPerOne * den ≤ num := by
  rw [nearest?_eq_none_iff_scale hd, limit_mul_unitsPerOne]
  exact roundingScale_gt_iff hd 2044

/-! ### Doubles -/

/-- The equation of the nearest double to a quotient. It is one between functions: applied to
arguments, its two sides would be compared by computing the magnitude. -/
lemma ofQuotient_def : Binary64.ofQuotient = fun negative num den =>
    match Magnitude.nearest? (num * unitsPerOne) den with
    | some m => .finite negative m
    | none => .infinity negative := by
  delta Binary64.ofQuotient
  rfl

namespace Binary64

variable {negative : Bool} {digits : Nat} {exponent : Int}

/-- The nearest double to a quotient is finite below the limit, and an infinity from there on. -/
lemma ofQuotient_cases (negative : Bool) (num : Nat) (hd : 0 < den) :
    num < limit * den
      ∧ (∃ m, ofQuotient negative num den = .finite negative m
        ∧ m.IsNearest (num * unitsPerOne) den)
    ∨ limit * den ≤ num ∧ ofQuotient negative num den = .infinity negative := by
  have hl : limit * den ≤ num ↔ Magnitude.nearest? (num * unitsPerOne) den = none := by
    rw [Magnitude.nearest?_eq_none_iff hd, Nat.mul_right_comm]
    exact (Nat.mul_le_mul_right_iff unitsPerOne_pos).symm
  rw [← Nat.not_le, hl, ofQuotient_def]
  dsimp only
  cases h : Magnitude.nearest? (num * unitsPerOne) den with
  | none => exact .inr ⟨rfl, rfl⟩
  | some m => exact .inl ⟨by simp, m, rfl, Magnitude.isNearest_of_nearest? hd h⟩

end Binary64

/-! ### Decimals -/

lemma lt_pow_decimalLength (n : Nat) : n < Nat.pow 10 (decimalLength n) :=
  (Nat.length_toDigits_le_iff (by decide) Nat.length_toDigits_pos).mp (Nat.le_refl _)

lemma pow_le_of_lt_decimalLength {n : Nat} (hn : n ≠ 0) (h : k < decimalLength n) :
    Nat.pow 10 k ≤ n := by
  rcases Nat.eq_zero_or_pos k with rfl | hk
  · exact Nat.pos_of_ne_zero hn
  · by_contra hlt
    have := (Nat.length_toDigits_le_iff (by decide) hk).mpr (Nat.not_le.mp hlt)
    exact absurd h (Nat.not_lt.mpr this)

/-- The limit has at most 310 digits. -/
lemma exists_limit_le_pow : ∃ k ≤ 310, Binary64.limit ≤ Nat.pow 10 k :=
  ⟨310, Nat.le_refl _, by decide +kernel⟩

lemma limit_pos : 0 < Binary64.limit := by
  decide +kernel

namespace Binary64

/-- A decimal so long that it is settled by its length is beyond the limit. -/
lemma limit_mul_pow_le_of_long {digits : Nat} {exponent : Int} (hn : digits ≠ 0)
    (h : 310 < decimalLength digits + exponent) :
    limit * Nat.pow 10 (-exponent).toNat ≤ digits * Nat.pow 10 exponent.toNat := by
  obtain ⟨k, hk, hl⟩ := exists_limit_le_pow
  calc limit * 10 ^ (-exponent).toNat
      ≤ 10 ^ k * 10 ^ (-exponent).toNat := Nat.mul_le_mul_right _ hl
    _ = 10 ^ (k + (-exponent).toNat) := (Nat.pow_add _ _ _).symm
    _ ≤ 10 ^ (decimalLength digits - 1 + exponent.toNat) :=
        Nat.pow_le_pow_right (by decide) (by omega)
    _ = 10 ^ (decimalLength digits - 1) * 10 ^ exponent.toNat := Nat.pow_add _ _ _
    _ ≤ digits * 10 ^ exponent.toNat := by
        refine Nat.mul_le_mul_right _ (pow_le_of_lt_decimalLength hn ?_)
        exact Nat.sub_lt Nat.length_toDigits_pos (by decide)

/-- A decimal so small that it is settled by its length is below the limit. -/
lemma lt_limit_mul_pow_of_short {digits : Nat} {exponent : Int}
    (h : decimalLength digits + exponent < -330) :
    digits * Nat.pow 10 exponent.toNat < limit * Nat.pow 10 (-exponent).toNat := by
  have he : exponent.toNat = 0 := by omega
  calc digits * 10 ^ exponent.toNat
      = digits := by rw [he, Nat.pow_zero, Nat.mul_one]
    _ < 10 ^ decimalLength digits := lt_pow_decimalLength digits
    _ ≤ 10 ^ (-exponent).toNat := Nat.pow_le_pow_right (by decide) (by omega)
    _ ≤ limit * 10 ^ (-exponent).toNat := Nat.le_mul_of_pos_left _ limit_pos

/-- **The nearest double to a decimal** is finite below the limit, and an infinity from there on. -/
lemma ofDecimal_cases (negative : Bool) (digits : Nat) (exponent : Int) :
    digits * Nat.pow 10 exponent.toNat < limit * Nat.pow 10 (-exponent).toNat
      ∧ (∃ m, ofDecimal negative digits exponent = .finite negative m)
    ∨ limit * Nat.pow 10 (-exponent).toNat ≤ digits * Nat.pow 10 exponent.toNat
      ∧ ofDecimal negative digits exponent = .infinity negative := by
  have hpos : ∀ k, 0 < Nat.pow 10 k := fun k => Nat.pow_pos (by decide)
  have hone : Nat.pow 10 0 = 1 := rfl
  unfold ofDecimal
  split_ifs with hz hlong hshort he
  · rw [hz, Nat.zero_mul]
    exact .inl ⟨Nat.mul_pos limit_pos (hpos _), _, rfl⟩
  · exact .inr ⟨limit_mul_pow_le_of_long hz hlong, rfl⟩
  · exact .inl ⟨lt_limit_mul_pow_of_short hshort, _, rfl⟩
  · have hn : (-exponent).toNat = 0 := by omega
    rw [hn, hone]
    refine (ofQuotient_cases negative _ Nat.one_pos).imp_left fun ⟨hl, m, hm, _⟩ => ⟨hl, m, hm⟩
  · have hn : exponent.toNat = 0 := by omega
    rw [hn, hone, Nat.mul_one]
    refine (ofQuotient_cases negative _ (hpos _)).imp_left fun ⟨hl, m, hm, _⟩ => ⟨hl, m, hm⟩

lemma ofDecimal_ne_nan (negative : Bool) (digits : Nat) (exponent : Int) :
    ofDecimal negative digits exponent ≠ .nan := by
  rcases ofDecimal_cases negative digits exponent with ⟨-, m, h⟩ | ⟨-, h⟩
  · simp [h]
  · simp [h]

/-! ### Integers -/

/-- **The nearest double to an integer** below the limit is finite. -/
lemma exists_ofInt_eq_finite {n : Int} (h : n.natAbs < limit) :
    ∃ m, ofInt n = .finite (decide (n < 0)) m ∧ m.IsNearest (n.natAbs * unitsPerOne) 1 := by
  rcases ofQuotient_cases (decide (n < 0)) n.natAbs Nat.one_pos with ⟨-, hm⟩ | ⟨hl, -⟩
  · exact hm
  · rw [Nat.mul_one] at hl
    exact absurd h (Nat.not_lt.mpr hl)

lemma le_limit : 0x10000000000000000 ≤ limit := by
  decide +kernel

end Binary64

end Reshape
