import Mathlib.Data.List.FinRange
import Reshape.Plan.Run
import Reshape.Proofs.Value.MeansSame

/-!
What is gathered without repetitions.

While values are gathered, only the representatives of the earlier ones are kept at hand. This is
enough to tell whether any earlier value means the same.

* `Remembers`: the representatives are those of given values.
* `distinctFrom_eq`: a value is kept if it holds something that is not a number, or means the same
  as none of those and as no earlier one.
* `gather_eq`: so what is gathered is known by comparing all pairs of values.
-/

namespace Reshape.Value

variable {before values rest : List Value} {value representative : Value}
  {seen : Std.HashSet Value}

/-! ### Representatives at hand -/

/-- The representatives are those of the values. -/
def Remembers (seen : Std.HashSet Value) (before : List Value) : Prop :=
  ∀ representative, representative ∈ seen ↔
    ∃ earlier ∈ before, earlier.canonical? = some representative

lemma remembers_nil : Remembers ∅ [] := by
  intro representative
  simp

/-- A value without a representative leaves nothing to remember. -/
lemma Remembers.cons_of_none (h : Remembers seen before) (hv : value.canonical? = none) :
    Remembers seen (value :: before) := by
  intro representative
  simp [h representative, hv]

/-- A representative that is at hand need not be remembered again. -/
lemma Remembers.cons_of_mem (h : Remembers seen before)
    (hv : value.canonical? = some representative) (hm : representative ∈ seen) :
    Remembers seen (value :: before) := by
  intro other
  rw [h other, List.exists_mem_cons_iff]
  refine ⟨.inr, ?_⟩
  rintro (ho | ho)
  · rw [hv, Option.some.injEq] at ho
    exact (h other).mp (ho ▸ hm)
  · exact ho

lemma Remembers.insert (h : Remembers seen before)
    (hv : value.canonical? = some representative) :
    Remembers (seen.insert representative) (value :: before) := by
  intro other
  rw [Std.HashSet.mem_insert, beq_iff_eq, List.exists_mem_cons_iff, hv, Option.some.injEq, h other]

/-- Whether an earlier value means the same is told by the representatives at hand. -/
lemma Remembers.mem_iff (h : Remembers seen before)
    (hv : value.canonical? = some representative) :
    representative ∈ seen ↔ ∃ earlier ∈ before, earlier.alike value := by
  rw [h representative]
  refine exists_congr fun earlier => and_congr_right fun _ => ?_
  rw [alike_iff]
  refine ⟨fun he => ⟨representative, he, hv⟩, ?_⟩
  rintro ⟨c, he, hc⟩
  rw [hv, Option.some.injEq] at hc
  rw [he, hc]

/-! ### Pairwise -/

/-- The value at an index holds something that is not a number, or means the same as none of the
values before the list, and as no earlier one in the list. -/
def IsNew (before values : List Value) (i : Fin values.length) : Prop :=
  values[i].HoldsNaN
    ∨ (∀ earlier ∈ before, ¬ earlier.alike values[i]) ∧ ∀ j < i, ¬ values[j].alike values[i]

instance : DecidablePred (IsNew before values) := fun _ =>
  inferInstanceAs (Decidable (_ ∨ _ ∧ _))

lemma isNew_zero_iff :
    IsNew before (value :: rest) (0 : Fin (rest.length + 1)) ↔
      value.HoldsNaN ∨ ∀ earlier ∈ before, ¬ earlier.alike value := by
  rw [IsNew]
  simp

/-- Behind the first value, this one counts among the earlier ones. -/
lemma isNew_succ_iff (i : Fin rest.length) :
    IsNew before (value :: rest) i.succ ↔ IsNew (value :: before) rest i := by
  have hj : (∀ j < i.succ, ¬ (value :: rest)[j].alike rest[i]) ↔
      ¬ value.alike rest[i] ∧ ∀ j < i, ¬ rest[j].alike rest[i] := by
    rw [Fin.forall_fin_succ]
    simp
  show rest[i].HoldsNaN ∨ (∀ earlier ∈ before, ¬ earlier.alike rest[i])
      ∧ (∀ j < i.succ, ¬ (value :: rest)[j].alike rest[i]) ↔ _
  rw [hj, IsNew, List.forall_mem_cons]
  tauto

/-- The values of a list that are new, in order. -/
def newValues (before values : List Value) : List Value :=
  ((List.finRange values.length).filter fun i => IsNew before values i).map (values[·])

/-- The first value is new or not, and it stands before the others in any case. -/
lemma newValues_cons :
    newValues before (value :: rest) =
      if value.HoldsNaN ∨ ∀ earlier ∈ before, ¬ earlier.alike value then
        value :: newValues (value :: before) rest
      else newValues (value :: before) rest := by
  have hrest : (((List.finRange rest.length).map Fin.succ).filter
      fun i => IsNew before (value :: rest) i).map ((value :: rest)[·]) =
        newValues (value :: before) rest := by
    rw [List.filter_map, List.map_map, newValues]
    refine congrArg (List.map (rest[·])) (List.filter_congr fun i _ => ?_)
    exact decide_eq_decide.mpr (isNew_succ_iff i)
  have hrange : List.finRange (value :: rest).length =
      (0 : Fin (rest.length + 1)) :: (List.finRange rest.length).map Fin.succ :=
    List.finRange_succ
  rw [newValues, hrange, List.filter_cons]
  simp only [decide_eq_true_eq, isNew_zero_iff]
  split
  · rw [List.map_cons, hrest]
    rfl
  · exact hrest

/-- Where the representatives of earlier values are at hand, exactly the new values are kept. -/
lemma distinctFrom_eq (h : Remembers seen before) :
    distinctFrom seen values = newValues before values := by
  induction values generalizing seen before with
  | nil => rfl
  | cons value rest ih =>
      rw [distinctFrom, newValues_cons]
      cases hv : value.canonical? with
      | none =>
          rw [if_pos (.inl (canonical?_eq_none_iff.mp hv))]
          exact congrArg (value :: ·) (ih (h.cons_of_none hv))
      | some representative =>
          have hn : ¬ value.HoldsNaN := by
            rw [← canonical?_eq_none_iff, hv]
            simp
          by_cases hm : representative ∈ seen
          · have hold : ¬ (value.HoldsNaN ∨ ∀ earlier ∈ before, ¬ earlier.alike value) := by
              obtain ⟨earlier, he, ha⟩ := (h.mem_iff hv).mp hm
              exact not_or.mpr ⟨hn, fun hnew => hnew earlier he ha⟩
            rw [if_neg hold, ← ih (h.cons_of_mem hv hm)]
            exact if_pos (Std.HashSet.mem_iff_contains.mp hm)
          · have hnew : ∀ earlier ∈ before, ¬ earlier.alike value := fun earlier he ha =>
              hm ((h.mem_iff hv).mpr ⟨earlier, he, ha⟩)
            rw [if_pos (.inr hnew), ← ih (h.insert hv)]
            exact if_neg (Std.HashSet.mem_iff_contains.not.mp hm)

/-- **Gathering compares all pairs.** Of what is no array, nothing is gathered. Of an array, what is
gathered is made of the properties of the items in order, where an array counts by its items. Of
these, exactly those are kept, in order and as they are, that hold something that is not a number or
mean the same as no earlier one. -/
theorem gather_eq (name : String) :
    (∀ input : Value, input.isArray = false → input.gather name = .array [])
    ∧ ∀ items : List Value,
      let found := items.flatMap fun item => (item.property name).flat
      (array items).gather name =
        .array (((List.finRange found.length).filter fun i =>
          found[i].HoldsNaN ∨ ∀ j < i, ¬ found[j].alike found[i]).map (found[·])) := by
  refine ⟨fun input h => ?_, fun items => ?_⟩
  · cases input with
    | array items => exact absurd h (by simp [isArray])
    | _ => rfl
  · intro found
    have hk : distinct found = newValues [] found := distinctFrom_eq remembers_nil
    show array (distinct found) = _
    rw [hk, newValues]
    simp [IsNew]

/-- One item has an array with a negative zero and what is not a number, the next one a zero, the
third one none of it; then comes what is not a number once more. -/
theorem gather_eq_zeros :
    (Value.boolean true).gather "x" = .array []
    ∧ (Value.array [
        .object [("x", .array [.number (.float (.zero true)), .number (.float .nan)])],
        .object [("x", .number (.integer 0))], .string "x",
        .object [("x", .number (.float .nan))]]).gather "x" =
      .array [.number (.float (.zero true)), .number (.float .nan), .null,
        .number (.float .nan)] := by
  refine ⟨(gather_eq "x").1 _ rfl, ?_⟩
  rw [(gather_eq "x").2]
  decide +kernel

end Reshape.Value
