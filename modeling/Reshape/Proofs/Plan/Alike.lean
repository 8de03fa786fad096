import Reshape.Proofs.Plan.Agreement
import Reshape.Proofs.Program.Numbers

/-!
No program tells values apart that mean the same.

* `corresponds_alike_iff`: values without repeated keys mean the same exactly if they are related up
  to the order of entries, number by number.
* `overlay_alike`: so laying values over each other keeps what they mean.
* `run_alike`: and so does every plan of a text.
-/

namespace Reshape

namespace Value

variable {a b a' b' : Value}

/-- Values without repeated keys that mean the same correspond to each other. -/
lemma corresponds_alike_iff :
    Corresponds Number.Alike a b ↔ a.HasDistinctKeys ∧ b.HasDistinctKeys ∧ a.alike b := by
  refine ⟨?_, ?_⟩
  · rintro ⟨ha, hb, h⟩
    exact ⟨ha, hb, (alike_iff_related ha hb).mpr h⟩
  · rintro ⟨ha, hb, h⟩
    exact ⟨ha, hb, (alike_iff_related ha hb).mp h⟩

lemma isCongruence_alike : IsCongruence (Corresponds Number.Alike) :=
  isCongruence_corresponds fun _ _ h => h.canonical?_eq

end Value

/-- The constants in the plan of a text mean the same as themselves. -/
lemma corresponds_toValue {value : Constant}
    (h : ∀ n, value = .number n → ∃ digits, n = .ofText digits) :
    Value.Corresponds Number.Alike value.toValue value.toValue := by
  refine ⟨hasDistinctKeys_toValue value, hasDistinctKeys_toValue value, ?_⟩
  cases value with
  | number n =>
      obtain ⟨digits, rfl⟩ := h n rfl
      obtain ⟨r, hr⟩ := Option.isSome_iff_exists.mp (canonical?_ofText_isSome digits)
      exact ⟨r, hr, hr⟩
  | word text => exact (rfl : text = text)

/-- **Programs keep what values mean.** Values that mean the same, like an integer and the float
that denotes it, still mean the same after values that mean the same are laid over them, and the
plan of a text gives outputs that mean the same for inputs that do. No object may repeat a key. -/
theorem run_alike :
    (∀ a b a' b' : Value, a.HasDistinctKeys → b.HasDistinctKeys → a'.HasDistinctKeys →
      b'.HasDistinctKeys → a.alike a' → b.alike b' → (a.overlay b).alike (a'.overlay b'))
    ∧ ∀ text plan, Plan.ofText text = .ok plan → ∀ v w : Value, v.HasDistinctKeys →
      w.HasDistinctKeys → v.alike w → (plan.run v).alike (plan.run w) := by
  have hr := Value.isCongruence_alike
  refine ⟨fun a b a' b' ha hb ha' hb' haa hbb => ?_, fun text plan h v w hv hw hvw => ?_⟩
  · have hc := hr.overlay (Value.corresponds_alike_iff.mpr ⟨ha, ha', haa⟩)
      (Value.corresponds_alike_iff.mpr ⟨hb, hb', hbb⟩)
    exact (Value.corresponds_alike_iff.mp hc).2.2
  · obtain ⟨program, hp, h⟩ := bind_eq_ok_iff.mp h
    obtain ⟨ha, rfl⟩ := ofProgram_eq_ok_iff.mp h
    have hc : Value.Corresponds Number.Alike v w :=
      Value.corresponds_alike_iff.mpr ⟨hv, hw, hvw⟩
    have hb : program.AgreesBeyond (Value.Corresponds Number.Alike) v w := by
      refine ⟨fun _ _ _ => hc, fun s hs key value hf => corresponds_toValue ?_⟩
      rintro n rfl
      exact exists_ofText_of_number hp hs hf
    exact (Value.corresponds_alike_iff.mp
      (hr.run_plan (agree_plan ha hb (agreesOn_of_corresponds hc)))).2.2

/-- Zero and negative zero among the properties of items, gathered next to a constant. -/
theorem run_alike_zeros :
    Plan.ofText "a:1;b.$>#x" =
      .ok (.merge [⟨["a"], .constant (.number (.integer 1))⟩, ⟨["b"], .gather "x"⟩])
    ∧ (Value.number (.integer 0)).alike (.number (.float (.zero true)))
    ∧ ((Value.number (.integer 0)).overlay (.object [("x", .number (.integer 0))])).alike
      ((Value.number (.float (.zero true))).overlay (.object [("x", .number (.integer 0))]))
    ∧ ((Plan.merge [⟨["a"], .constant (.number (.integer 1))⟩, ⟨["b"], .gather "x"⟩]).run
        (.array [.object [("x", .number (.integer 0))], .object []])).alike
      ((Plan.merge [⟨["a"], .constant (.number (.integer 1))⟩, ⟨["b"], .gather "x"⟩]).run
        (.array [.object [("x", .number (.float (.zero true)))], .object []])) := by
  have hp : Plan.ofText "a:1;b.$>#x" =
      .ok (.merge [⟨["a"], .constant (.number (.integer 1))⟩, ⟨["b"], .gather "x"⟩]) :=
    toOption_eq_some_iff.mp (by decide +kernel)
  have hz : (Value.number (.integer 0)).alike (.number (.float (.zero true))) := by decide +kernel
  have hd : ∀ n : Number,
      (Value.array [.object [("x", .number n)], .object []]).HasDistinctKeys := by
    intro n
    simp [Value.HasDistinctKeys, Value.ItemsHaveDistinctKeys, Value.EntriesHaveDistinctKeys]
  have ho : (Value.object [("x", .number (.integer 0))]).HasDistinctKeys := by
    simp [Value.HasDistinctKeys, Value.EntriesHaveDistinctKeys]
  exact ⟨hp, hz, run_alike.1 _ _ _ _ trivial ho trivial ho hz (by decide +kernel),
    run_alike.2 _ _ hp _ _ (hd _) (hd _) (by decide +kernel)⟩

end Reshape
