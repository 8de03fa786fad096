import Mathlib.Tactic.Common

/-!
Attempts: computations that give a value or a reason why there is none.

* `map_eq_ok_iff`, `bind_eq_ok_iff` and `mapM_eq_ok_iff`: when a compound attempt succeeds, and with
  which value.
* `toOption_eq_some_iff`: how such a success is decided.
* `map_eq_error_iff` and `bind_eq_error_iff`: where a failure comes from.
* `mapError_map`: values and reasons are changed independently of each other.
-/

namespace Reshape

variable {ε α β : Type} {reason : ε}

/-- Whether an attempt succeeds with a given value can be decided where values can be compared. -/
lemma toOption_eq_some_iff {x : Except ε α} {a : α} : x.toOption = some a ↔ x = .ok a := by
  cases x <;> simp [Except.toOption]

lemma map_eq_ok_iff {f : α → β} {x : Except ε α} {b : β} :
    f <$> x = .ok b ↔ ∃ a, x = .ok a ∧ f a = b := by
  cases x <;> simp

lemma bind_eq_ok_iff {f : α → Except ε β} {x : Except ε α} {b : β} :
    x >>= f = .ok b ↔ ∃ a, x = .ok a ∧ f a = .ok b := by
  cases x with
  | error reason => simp [bind, Except.bind]
  | ok a => simp [bind, Except.bind]

lemma map_eq_error_iff {f : α → β} {x : Except ε α} :
    f <$> x = .error reason ↔ x = .error reason := by
  cases x <;> simp

lemma bind_eq_error_iff {f : α → Except ε β} {x : Except ε α} :
    x >>= f = .error reason ↔ x = .error reason ∨ ∃ a, x = .ok a ∧ f a = .error reason := by
  cases x with
  | error reason => simp [bind, Except.bind]
  | ok a => simp [bind, Except.bind]

/-- The value and the reason of an attempt may be changed in any order. -/
lemma mapError_map {ε' : Type} (x : Except ε α) (f : α → β) (g : ε → ε') :
    (f <$> x).mapError g = f <$> x.mapError g := by
  cases x <;> rfl

/-- Where every single attempt succeeds exactly under a condition, and with a known value, a row of
attempts succeeds exactly if all conditions hold, and with all these values. -/
lemma mapM_eq_ok_iff {f : α → Except ε β} {P : α → Prop} {g : α → β}
    (hf : ∀ x y, f x = .ok y ↔ P x ∧ y = g x) {xs : List α} {ys : List β} :
    xs.mapM f = .ok ys ↔ (∀ x ∈ xs, P x) ∧ ys = xs.map g := by
  induction xs generalizing ys with
  | nil =>
      rw [List.mapM_nil]
      refine ⟨?_, ?_⟩
      · intro h
        exact ⟨by simp, (Except.ok.inj h).symm⟩
      · rintro ⟨-, rfl⟩
        rfl
  | cons x xs ih =>
      rw [List.mapM_cons, List.forall_mem_cons, bind_eq_ok_iff]
      refine ⟨?_, ?_⟩
      · rintro ⟨y, hy, h⟩
        obtain ⟨rest, hr, h⟩ := bind_eq_ok_iff.mp h
        obtain ⟨hx, rfl⟩ := (hf x y).mp hy
        obtain ⟨hxs, rfl⟩ := ih.mp hr
        exact ⟨⟨hx, hxs⟩, (Except.ok.inj h).symm⟩
      · rintro ⟨⟨hx, hxs⟩, rfl⟩
        exact ⟨g x, (hf x _).mpr ⟨hx, rfl⟩, bind_eq_ok_iff.mpr ⟨_, ih.mpr ⟨hxs, rfl⟩, rfl⟩⟩

end Reshape
