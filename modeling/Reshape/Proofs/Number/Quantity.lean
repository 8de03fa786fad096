import Mathlib.Tactic.Common
import Reshape.Number.Quantity
import Reshape.Value.Canonical

/-!
Numbers that denote the same.

A magnitude is written in one way only, so a double is known from the units that it denotes, unless
it is a zero. An integer and a double meet where the units of the double are a multiple of those of
one, and then the representative of the double is that integer.

* `Magnitude.eq_of_units_eq`: a magnitude is known from its units.
* `Binary64.eq_of_quantity?_eq`: a double is known from what it denotes, unless that is zero.
* `Binary64.toInt?_eq_some_iff`: a double denotes an integer exactly if it has the units of it.
* `Binary64.toBits_ofBits`: a word is known from the double that it encodes, if that is a number.
* `Number.canonical?_float_cases`, `Number.canonical?_eq_integer_iff` and
  `Number.canonical?_eq_float_iff`: which numbers have a given representative.
* `Number.exists_canonical?_iff_quantity?`: numbers have the same representative exactly if they
  denote the same.
-/

namespace Reshape

/-! ### Magnitudes -/

namespace Magnitude

variable {m n : Magnitude}

/-- Of two magnitudes with the same units, neither has the larger scale: it would have a leading bit,
and the other one a significand at least twice as large. -/
lemma scale_le_of_units_eq (h : m.units = n.units) : m.scale ≤ n.scale := by
  by_contra hlt
  obtain ⟨k, hk⟩ := Nat.exists_eq_add_of_lt (Nat.not_le.mp hlt)
  have hs : n.significand = m.significand * 2 ^ (k + 1) := by
    refine Nat.eq_of_mul_eq_mul_right (Nat.two_pow_pos n.scale) ?_
    calc n.significand * 2 ^ n.scale
        = m.significand * 2 ^ m.scale := h.symm
      _ = m.significand * 2 ^ (k + 1) * 2 ^ n.scale := by
          rw [hk, Nat.mul_assoc, ← Nat.pow_add, show n.scale + k + 1 = k + 1 + n.scale from by omega]
  have hfull : 0x10000000000000 ≤ m.significand := m.normal.resolve_right (by omega)
  have htwice : m.significand * 2 ≤ n.significand := by
    rw [hs]
    exact Nat.mul_le_mul_left _ (Nat.le_self_pow (Nat.succ_ne_zero k) 2)
  have hlast := n.significand_lt
  omega

/-- A magnitude is known from its units. -/
lemma eq_of_units_eq (h : m.units = n.units) : m = n := by
  have hk : m.scale = n.scale :=
    Nat.le_antisymm (scale_le_of_units_eq h) (scale_le_of_units_eq h.symm)
  have hs : m.significand = n.significand := by
    have hu : m.significand * 2 ^ m.scale = n.significand * 2 ^ n.scale := h
    rw [hk] at hu
    exact Nat.eq_of_mul_eq_mul_right (Nat.two_pow_pos n.scale) hu
  cases m
  cases n
  subst hk hs
  rfl

lemma toBits_of_ofParts? {significand scale : Nat} (h : ofParts? significand scale = some m) :
    m.toBits = scale * 0x10000000000000 + significand := by
  unfold ofParts? at h
  split at h
  · obtain rfl := Option.some.inj h
    rfl
  · exact absurd h (by simp)

end Magnitude

/-! ### Doubles -/

lemma unitsPerOne_pos : 0 < unitsPerOne := by
  decide +kernel

namespace Binary64

variable {x y : Binary64} {q : Quantity} {n : Int}

/-- A sign in front of a number of units. -/
lemma quantity?_finite (negative : Bool) (m : Magnitude) :
    (finite negative m).quantity? =
      some (.units (if negative then -(m.units : Int) else m.units)) := by
  cases negative <;> rfl

lemma quantity?_eq_none_iff : x.quantity? = none ↔ x = .nan := by
  cases x with
  | nan => exact iff_of_true rfl rfl
  | infinity negative => cases negative <;> simp [quantity?]
  | finite negative m => simp [quantity?_finite]

/-- A double is known from what it denotes, unless that is zero, which has two signs. -/
lemma eq_of_quantity?_eq (h : x.quantity? = y.quantity?) (hz : x.quantity? ≠ some (.units 0)) :
    x = y := by
  cases x with
  | nan => exact (quantity?_eq_none_iff.mp h.symm).symm
  | infinity s =>
      cases y with
      | nan => cases s <;> simp [quantity?] at h
      | infinity t => cases s <;> cases t <;> simp [quantity?] at h ⊢
      | finite t n =>
          rw [quantity?_finite] at h
          cases s <;> simp [quantity?] at h
  | finite s m =>
      rw [quantity?_finite] at h hz
      cases y with
      | nan => simp [quantity?] at h
      | infinity t => cases t <;> simp [quantity?] at h
      | finite t n =>
          rw [quantity?_finite, Option.some.injEq, Quantity.units.injEq] at h
          rw [ne_eq, Option.some.injEq, Quantity.units.injEq] at hz
          obtain ⟨hst, hmn⟩ : s = t ∧ m.units = n.units := by
            cases s <;> cases t <;> simp at hz h ⊢ <;> omega
          rw [hst, Magnitude.eq_of_units_eq hmn]

/-- A multiple is known from its quotient. -/
lemma ediv_eq_iff {k u : Nat} (hu : 0 < u) (n : Int) :
    k % u = 0 ∧ (k / u : Int) = n ↔ (k : Int) = n * u := by
  have hne : (u : Int) ≠ 0 := by omega
  refine ⟨fun ⟨hk, hn⟩ => ?_, fun h => ?_⟩
  · have hd : (u : Int) ∣ k := Int.natCast_dvd_natCast.mpr (Nat.dvd_of_mod_eq_zero hk)
    exact (Int.ediv_eq_iff_eq_mul_left hne hd).mp hn
  · have hd : (u : Int) ∣ k := ⟨n, by rw [h, Int.mul_comm]⟩
    exact ⟨Nat.mod_eq_zero_of_dvd (Int.natCast_dvd_natCast.mp hd),
      (Int.ediv_eq_iff_eq_mul_left hne hd).mpr h⟩

/-- A double denotes an integer exactly if it has the units of that integer. -/
lemma toInt?_eq_some_iff :
    x.toInt? = some n ↔ x.quantity? = some (.units (n * unitsPerOne)) := by
  cases x with
  | nan => exact iff_of_false (by rintro ⟨⟩) (by rintro ⟨⟩)
  | infinity negative => cases negative <;> exact iff_of_false (by rintro ⟨⟩) (by rintro ⟨⟩)
  | finite negative m =>
      have hu := unitsPerOne_pos
      rw [quantity?_finite, toInt?, Option.some.injEq, Quantity.units.injEq]
      generalize unitsPerOne = u at hu
      simp only [Option.ite_none_right_eq_some, Option.some.injEq]
      cases negative with
      | false => exact ediv_eq_iff hu n
      | true =>
          have hn : -(m.units / u : Int) = n ↔ (m.units / u : Int) = -n := by omega
          have hm : -(m.units : Int) = n * u ↔ (m.units : Int) = -n * u := by
            rw [Int.neg_mul]
            omega
          simp only [if_true]
          rw [hn, hm, ediv_eq_iff hu]

/-- The sign bit and the other bits of a word make the word. -/
lemma toUInt64_signBit_add (w : UInt64) {bits : Nat}
    (hb : bits = w.toNat % 0x8000000000000000) :
    (signBit (decide (0x8000000000000000 ≤ w.toNat)) + bits).toUInt64 = w := by
  have hw := w.toNat_lt
  rw [← UInt64.toNat_inj, Nat.toUInt64, UInt64.toNat_ofNat', signBit]
  simp only [decide_eq_true_eq]
  split <;> omega

/-- A word is known from the double that it encodes, unless that is not a number. -/
lemma toBits_ofBits {w : UInt64} (h : ofBits w ≠ .nan) : (ofBits w).toBits = w := by
  have hfield := Nat.div_add_mod (w.toNat % 0x8000000000000000) 0x10000000000000
  unfold ofBits at h ⊢
  dsimp only at h ⊢
  split
  · next hf =>
      split
      · next hz => exact toUInt64_signBit_add w (by omega)
      · next hz =>
          rw [if_pos hf, if_neg hz] at h
          exact absurd rfl h
  · next hf =>
      rw [if_neg hf] at h
      split at h
      · next m hm =>
          refine toUInt64_signBit_add w ?_
          split at hm
          · have hm := Magnitude.toBits_of_ofParts? hm
            omega
          · have hm := Magnitude.toBits_of_ofParts? hm
            omega
      · exact absurd rfl h

end Binary64

/-! ### Representatives -/

namespace Number

variable {m n : Number} {i : Int64} {x y : Binary64}

/-- A double denotes an integer of 64 bits, or none of them. -/
lemma exists_toInt_eq {k : Int} :
    -0x8000000000000000 ≤ k ∧ k < 0x8000000000000000 ↔ ∃ i : Int64, i.toInt = k := by
  refine ⟨fun ⟨hlo, hhi⟩ => ⟨Int64.ofInt k, ?_⟩, ?_⟩
  · exact Int64.toInt_ofInt_of_le (by omega) (by omega)
  · rintro ⟨i, rfl⟩
    have hlo := i.le_toInt
    have hhi := i.toInt_lt
    omega

lemma canonical?_float (hx : x ≠ .nan) :
    (float x).canonical? =
      match x.toInt? with
      | some k =>
        if -0x8000000000000000 ≤ k ∧ k < 0x8000000000000000 then some (.integer (Int64.ofInt k))
        else some (.float x)
      | none => some (.float x) := by
  cases x with
  | nan => exact absurd rfl hx
  | infinity negative | finite negative magnitude => rfl

/-- The representatives of doubles: none of what is not a number, the integer of 64 bits that the
double denotes, or else the double itself. -/
lemma canonical?_float_cases (x : Binary64) :
    x = .nan ∧ (float x).canonical? = none
    ∨ (∃ i : Int64, x.toInt? = some i.toInt ∧ (float x).canonical? = some (.integer i))
    ∨ x ≠ .nan ∧ (∀ i : Int64, x.toInt? ≠ some i.toInt)
      ∧ (float x).canonical? = some (.float x) := by
  by_cases hx : x = .nan
  · exact .inl ⟨hx, by rw [hx]; rfl⟩
  · rw [canonical?_float hx]
    cases hk : x.toInt? with
    | none => exact .inr (.inr ⟨hx, by simp, rfl⟩)
    | some k =>
        by_cases hr : -0x8000000000000000 ≤ k ∧ k < 0x8000000000000000
        · obtain ⟨i, rfl⟩ := exists_toInt_eq.mp hr
          refine .inr (.inl ⟨i, rfl, ?_⟩)
          dsimp only
          rw [if_pos hr, Int64.ofInt_toInt]
        · refine .inr (.inr ⟨hx, fun i hi => hr ?_, if_neg hr⟩)
          exact exists_toInt_eq.mpr ⟨i, (Option.some.inj hi).symm⟩

/-- What is not a number has no representative. -/
lemma canonical?_eq_none_iff : n.canonical? = none ↔ n = .float .nan := by
  cases n with
  | integer j => simp [canonical?]
  | float x =>
      rw [float.injEq]
      rcases canonical?_float_cases x with ⟨hx, hc⟩ | ⟨i, hi, hc⟩ | ⟨hx, -, hc⟩
      · exact iff_of_true hc hx
      · refine iff_of_false (by simp [hc]) ?_
        rintro rfl
        cases hi
      · exact iff_of_false (by simp [hc]) hx

/-- The numbers whose representative is a given integer are those that denote it. -/
lemma canonical?_eq_integer_iff :
    n.canonical? = some (.integer i) ↔ n.quantity? = some (.units (i.toInt * unitsPerOne)) := by
  cases n with
  | integer j =>
      have hu : (unitsPerOne : Int) ≠ 0 := Int.natCast_ne_zero.mpr (Nat.ne_of_gt unitsPerOne_pos)
      rw [canonical?, quantity?, Option.some.injEq, Option.some.injEq, integer.injEq,
        Quantity.units.injEq, Int.mul_eq_mul_right_iff hu, Int64.toInt_inj]
  | float x =>
      rw [quantity?, ← Binary64.toInt?_eq_some_iff]
      rcases canonical?_float_cases x with ⟨rfl, hc⟩ | ⟨j, hj, hc⟩ | ⟨-, hn, hc⟩
      · exact iff_of_false (by simp [hc]) (by rintro ⟨⟩)
      · rw [hc, hj, Option.some.injEq, Option.some.injEq, integer.injEq, Int64.toInt_inj]
      · exact iff_of_false (by simp [hc]) (hn i)

/-- A double is a representative of itself only, and only if it denotes no integer of 64 bits. -/
lemma canonical?_eq_float_iff :
    n.canonical? = some (.float x) ↔
      n = .float x ∧ x ≠ .nan ∧ ∀ i : Int64, x.toInt? ≠ some i.toInt := by
  cases n with
  | integer j => simp [canonical?]
  | float y =>
      rw [float.injEq]
      rcases canonical?_float_cases y with ⟨rfl, hc⟩ | ⟨i, hi, hc⟩ | ⟨hy, hn, hc⟩
      · exact iff_of_false (by simp [hc]) fun h => h.2.1 h.1.symm
      · exact iff_of_false (by simp [hc]) fun h => h.2.2 i (h.1 ▸ hi)
      · rw [hc, Option.some.injEq, float.injEq]
        refine ⟨?_, fun h => h.1⟩
        rintro rfl
        exact ⟨rfl, hy, hn⟩

/-- The double that denotes something else than an integer of 64 bits is its own representative. -/
lemma canonical?_float_of_quantity? {q : Quantity} (hx : x.quantity? = some q)
    (hq : ∀ i : Int64, q ≠ .units (i.toInt * unitsPerOne)) :
    (float x).canonical? = some (.float x) := by
  refine canonical?_eq_float_iff.mpr ⟨rfl, ?_, fun i h => ?_⟩
  · rintro rfl
    cases hx
  · rw [Binary64.toInt?_eq_some_iff, hx, Option.some.injEq] at h
    exact hq i h

/-- There is only one double that denotes something else than an integer of 64 bits, since zero is
such an integer. -/
lemma eq_of_quantity? {q : Quantity} (hx : x.quantity? = some q) (hy : y.quantity? = some q)
    (hq : ∀ i : Int64, q ≠ .units (i.toInt * unitsPerOne)) : x = y := by
  refine Binary64.eq_of_quantity?_eq (hx.trans hy.symm) ?_
  have hz := hq 0
  rwa [hx, ne_eq, Option.some.injEq, ← Int.zero_mul (unitsPerOne : Int), ← Int64.toInt_zero]

/-- **Numbers denote the same** exactly if they have the same representative: an integer that both of
them denote, or else the one double that denotes it. -/
lemma exists_canonical?_iff_quantity? :
    (∃ r, m.canonical? = some r ∧ n.canonical? = some r) ↔
      ∃ q, m.quantity? = some q ∧ n.quantity? = some q := by
  refine ⟨?_, ?_⟩
  · rintro ⟨r, hm, hn⟩
    cases r with
    | integer i =>
        exact ⟨_, canonical?_eq_integer_iff.mp hm, canonical?_eq_integer_iff.mp hn⟩
    | float x =>
        obtain ⟨rfl, hx, -⟩ := canonical?_eq_float_iff.mp hm
        obtain ⟨rfl, -, -⟩ := canonical?_eq_float_iff.mp hn
        obtain ⟨q, hq⟩ := Option.ne_none_iff_exists'.mp (Binary64.quantity?_eq_none_iff.not.mpr hx)
        exact ⟨q, hq, hq⟩
  · rintro ⟨q, hm, hn⟩
    by_cases hi : ∃ i : Int64, q = .units (i.toInt * unitsPerOne)
    · obtain ⟨i, rfl⟩ := hi
      exact ⟨_, canonical?_eq_integer_iff.mpr hm, canonical?_eq_integer_iff.mpr hn⟩
    · cases m with
      | integer i => exact absurd ⟨i, (Option.some.inj hm).symm⟩ hi
      | float x =>
          cases n with
          | integer i => exact absurd ⟨i, (Option.some.inj hn).symm⟩ hi
          | float y =>
              have hq : ∀ i : Int64, q ≠ .units (i.toInt * unitsPerOne) := fun i h => hi ⟨i, h⟩
              obtain rfl : x = y := eq_of_quantity? hm hn hq
              exact ⟨_, canonical?_float_of_quantity? hm hq, canonical?_float_of_quantity? hm hq⟩

end Number

end Reshape
