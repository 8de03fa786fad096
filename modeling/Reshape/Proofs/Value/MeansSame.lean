import Reshape.Proofs.Number.Quantity
import Reshape.Proofs.Value.Canonical
import Reshape.Proofs.Value.Material

/-!
Values that mean the same are those that denote the same.

* `HoldsNaN`: something that is not a number occurs in the value, at whatever depth.
* `canonical?_eq_none_iff`: such values, and only they, have no representative.
* `related_alike_iff_meansSame`: numbers in the same places have the same representative exactly if
  they denote the same.
* `alike_iff_meansSame`: so `alike` decides whether values denote the same, and this is an
  equivalence of the values that hold numbers only.
-/

namespace Reshape

namespace Value

variable {a b c value : Value}

/-- Something that is not a number occurs in the value. -/
def HoldsNaN (value : Value) : Prop :=
  Within (.number (.float .nan)) value

/-! ### Values without a representative -/

/-- Holding numbers only is a condition on the scalars in a value. -/
lemma not_holdsNaN_iff_madeOf :
    ¬ value.HoldsNaN ↔ value.MadeOf (· ≠ .number (.float .nan)) fun _ => True := by
  refine ⟨fun h => ⟨?_, fun _ => trivial⟩, fun h hw => ?_⟩
  · rintro inner - hw rfl
    exact h hw
  · have hs : (number (.float .nan)).IsScalar := trivial
    exact h.scalar hs hw rfl

lemma not_holdsNaN_array_iff {items : List Value} :
    ¬ (array items).HoldsNaN ↔ ∀ item ∈ items, ¬ item.HoldsNaN := by
  simp only [not_holdsNaN_iff_madeOf, madeOf_array]

lemma not_holdsNaN_object_iff {entries : List (String × Value)} :
    ¬ (object entries).HoldsNaN ↔ ∀ entry ∈ entries, ¬ entry.2.HoldsNaN := by
  simp only [not_holdsNaN_iff_madeOf, madeOf_object, true_and]

lemma holdsNaN_number_iff {n : Number} : (number n).HoldsNaN ↔ n = .float .nan := by
  refine ⟨?_, ?_⟩
  · rintro ⟨⟩
    rfl
  · rintro rfl
    exact .self

/-- A value has a representative exactly if it holds numbers only. -/
lemma canonical?_isSome_iff_not_holdsNaN : value.canonical?.isSome ↔ ¬ value.HoldsNaN := by
  induction value using memInd with
  | h value hi he =>
      cases value with
      | array items =>
          rw [canonical?, Option.isSome_map, canonicalItems?_isSome_iff, not_holdsNaN_array_iff]
          exact forall₂_congr hi
      | object entries =>
          rw [canonical?, Option.isSome_map, canonicalEntries?_isSome_iff, not_holdsNaN_object_iff]
          exact forall₂_congr he
      | number n =>
          rw [canonical?, Option.isSome_map, holdsNaN_number_iff, Option.isSome_iff_ne_none,
            ne_eq, Number.canonical?_eq_none_iff]
      | null | boolean _ | string _ =>
          exact iff_of_true rfl (by rintro ⟨⟩)

lemma canonical?_eq_none_iff : value.canonical? = none ↔ value.HoldsNaN := by
  rw [← Option.not_isSome_iff_eq_none, canonical?_isSome_iff_not_holdsNaN, not_not]

instance : DecidablePred HoldsNaN := fun _ =>
  decidable_of_iff _ canonical?_eq_none_iff

/-! ### Values that denote the same -/

lemma alike_symm (h : a.alike b) : b.alike a := by
  obtain ⟨c, ha, hb⟩ := alike_iff.mp h
  exact alike_iff.mpr ⟨c, hb, ha⟩

lemma alike_trans (h : a.alike b) (h' : b.alike c) : a.alike c := by
  obtain ⟨x, ha, hb⟩ := alike_iff.mp h
  obtain ⟨y, hb', hc⟩ := alike_iff.mp h'
  rw [hb, Option.some.injEq] at hb'
  subst hb'
  exact alike_iff.mpr ⟨x, ha, hc⟩

/-- The values that mean the same as themselves are those that hold numbers only. -/
lemma alike_self_iff : a.alike a ↔ ¬ a.HoldsNaN := by
  rw [alike_iff, ← canonical?_isSome_iff_not_holdsNaN, Option.isSome_iff_exists]
  simp only [and_self]

lemma not_holdsNaN_of_alike (h : a.alike b) : ¬ a.HoldsNaN :=
  alike_self_iff.mp (alike_trans h (alike_symm h))

/-- Numbers in the same places have the same representative exactly if they denote the same. -/
lemma related_alike_iff_meansSame : Related Number.Alike a b ↔ MeansSame a b := by
  have h : Number.Alike = fun m n => ∃ q, m.quantity? = some q ∧ n.quantity? = some q :=
    funext fun _ => funext fun _ => propext Number.exists_canonical?_iff_quantity?
  rw [h, MeansSame]

/-- **Meaning the same is denoting the same.** For values without repeated keys, two of them are
found to mean the same exactly if neither holds anything that is not a number, and they are equal up
to the order of entries and up to the kinds of numbers that denote the same. So this is symmetric and
transitive, and it is reflexive for the values that hold numbers only. Of the words that encode
doubles, different ones encode different doubles, unless these are not numbers. -/
theorem alike_iff_meansSame :
    (∀ a b : Value, a.HasDistinctKeys → b.HasDistinctKeys →
      (a.alike b ↔ ¬ a.HoldsNaN ∧ ¬ b.HoldsNaN ∧ a.MeansSame b))
    ∧ (∀ a b : Value, a.alike b → b.alike a)
    ∧ (∀ a b c : Value, a.alike b → b.alike c → a.alike c)
    ∧ (∀ a : Value, a.alike a ↔ ¬ a.HoldsNaN)
    ∧ ∀ v w : UInt64, Binary64.ofBits v ≠ .nan → (Binary64.ofBits v = .ofBits w ↔ v = w) := by
  refine ⟨fun a b ha hb => ?_, fun _ _ => alike_symm, fun _ _ _ => alike_trans,
    fun _ => alike_self_iff, fun v w hv => ⟨fun h => ?_, fun h => by rw [h]⟩⟩
  · have hm : a.alike b ↔ a.MeansSame b := by
      rw [alike_iff_related ha hb, related_alike_iff_meansSame]
    refine ⟨fun h => ?_, fun h => hm.mpr h.2.2⟩
    exact ⟨not_holdsNaN_of_alike h, not_holdsNaN_of_alike (alike_symm h), hm.mp h⟩
  · calc v
        = (Binary64.ofBits v).toBits := (Binary64.toBits_ofBits hv).symm
      _ = (Binary64.ofBits w).toBits := by rw [h]
      _ = w := Binary64.toBits_ofBits (h ▸ hv)

/-- A negative zero and `2^53` as doubles, deep inside values, against the integers; the next integer
after `2^53` is not the same; the words of the two zeros encode different doubles. -/
theorem alike_iff_meansSame_zeros :
    MeansSame
      (.array [.number (.float (.ofBits 0x8000000000000000)),
        .object [("x", .null), ("y", .number (.float (.ofBits 0x4340000000000000)))]])
      (.array [.number (.integer 0),
        .object [("y", .number (.integer 0x20000000000000)), ("x", .null)]])
    ∧ ¬ MeansSame (.number (.float (.ofBits 0x4340000000000000)))
      (.number (.integer 0x20000000000001))
    ∧ Binary64.ofBits 0x8000000000000000 ≠ .ofBits 0 := by
  have hd : ∀ m n : Number, (Value.array [.number m,
      .object [("x", .null), ("y", .number n)]]).HasDistinctKeys := by
    intro m n
    simp [HasDistinctKeys, ItemsHaveDistinctKeys, EntriesHaveDistinctKeys]
  have hd' : ∀ m n : Number, (Value.array [.number m,
      .object [("y", .number n), ("x", .null)]]).HasDistinctKeys := by
    intro m n
    simp [HasDistinctKeys, ItemsHaveDistinctKeys, EntriesHaveDistinctKeys]
  have hn : ∀ n : Number, (Value.number n).HasDistinctKeys := fun _ => trivial
  have hself : ∀ n : Number, (Value.number n).alike (.number n) → ¬ (number n).HoldsNaN :=
    fun n => (alike_iff_meansSame.2.2.2.1 (.number n)).mp
  refine ⟨?_, ?_, ?_⟩
  · exact ((alike_iff_meansSame.1 _ _ (hd _ _) (hd' _ _)).mp (by decide +kernel)).2.2
  · intro h
    have ha := (alike_iff_meansSame.1 _ _ (hn _) (hn _)).mpr
      ⟨hself _ (by decide +kernel), hself _ (by decide +kernel), h⟩
    exact absurd ha (by decide +kernel)
  · rw [ne_eq, alike_iff_meansSame.2.2.2.2 _ _ (by decide +kernel)]
    decide

end Value

end Reshape
