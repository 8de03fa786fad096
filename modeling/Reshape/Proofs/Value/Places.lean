import Mathlib.Data.List.Infix
import Mathlib.Order.WellFounded
import Reshape.Proofs.Value.Overlay

/-!
What stands at a place when one value is laid over another.

* `CombinedAt`: both values have the place, and there both hold objects or both hold arrays.
* `CombinedDownTo`: this is so wherever the way to a place leads, in front of its end.
* `PartAt`: the first place on the way where it is not so.
* `overlay_at`: down to the place, what both have there is laid over each other; behind the place
  where the values part, one of them has all.
-/

namespace Reshape.Value

/-- Both values have the place, and what they have there is combined: two objects or two arrays. -/
def CombinedAt (lower upper : Value) (place : Place) : Prop :=
  ∃ x y, lower.at? place = some x ∧ upper.at? place = some y ∧ Combinable x y

/-- The values are combined all the way down to the place, in front of its end. -/
def CombinedDownTo (lower upper : Value) (place : Place) : Prop :=
  ∀ front, front <+: place → front ≠ place → CombinedAt lower upper front

/-- On the way to the place, `front` is the first place where the values are not combined. -/
structure PartAt (lower upper : Value) (place front : Place) : Prop where
  /-- The place is on the way. -/
  leads : front <+: place
  /-- It is not the end of the way. -/
  proper : front ≠ place
  /-- The values are combined before. -/
  down : CombinedDownTo lower upper front
  /-- They are not combined there. -/
  apart : ¬ CombinedAt lower upper front

variable {lower upper x y : Value} {step : Place.Step} {place front rest : Place}

/-! ### One step on the way -/

lemma at?_cons (value : Value) (step : Place.Step) (rest : Place) :
    value.at? (step :: rest) = (value.child? step).bind (·.at? rest) := rfl

/-- A place is found by going to a place on the way first. -/
lemma at?_append (value : Value) (front rest : Place) :
    value.at? (front ++ rest) = (value.at? front).bind (·.at? rest) := by
  induction front generalizing value with
  | nil => rfl
  | cons step front ih =>
      rw [List.cons_append, at?_cons, at?_cons, Option.bind_assoc]
      exact congrArg _ (funext fun inner => ih inner)

/-- Where a place on the way is missing, so is the place. -/
lemma at?_eq_none_of_leads (h : front <+: place) (hn : lower.at? front = none) :
    lower.at? place = none := by
  obtain ⟨rest, rfl⟩ := h
  rw [at?_append, hn]
  rfl

lemma combinedAt_nil_iff : CombinedAt lower upper [] ↔ Combinable lower upper := by
  refine ⟨?_, fun h => ⟨lower, upper, rfl, rfl, h⟩⟩
  rintro ⟨x, y, hx, hy, h⟩
  rwa [Option.some.inj hx, Option.some.inj hy]

/-- Behind a step that both values have, it is their children that are combined or not. -/
lemma combinedAt_cons_iff (hx : lower.child? step = some x) (hy : upper.child? step = some y) :
    CombinedAt lower upper (step :: rest) ↔ CombinedAt x y rest := by
  rw [CombinedAt, CombinedAt, at?_cons, at?_cons, hx, hy, Option.bind_some, Option.bind_some]

lemma CombinedDownTo.combinable (h : CombinedDownTo lower upper (step :: rest)) :
    Combinable lower upper :=
  combinedAt_nil_iff.mp (h [] List.nil_prefix (List.cons_ne_nil step rest).symm)

lemma CombinedDownTo.of_cons (h : CombinedDownTo lower upper (step :: rest))
    (hx : lower.child? step = some x) (hy : upper.child? step = some y) :
    CombinedDownTo x y rest := by
  intro front hf hne
  rw [← combinedAt_cons_iff hx hy]
  exact h (step :: front) (List.cons_prefix_cons.mpr ⟨rfl, hf⟩) fun he => hne (List.cons.inj he).2

lemma PartAt.of_cons (h : PartAt lower upper (step :: place) (step :: front))
    (hx : lower.child? step = some x) (hy : upper.child? step = some y) :
    PartAt x y place front where
  leads := (List.cons_prefix_cons.mp h.leads).2
  proper := fun he => h.proper (he ▸ rfl)
  down := h.down.of_cons hx hy
  apart := (combinedAt_cons_iff hx hy).not.mp h.apart

/-! ### What stands at a place -/

/-- Where the values are combined down to a place, what they have there is laid over each other. -/
lemma at?_overlay_of_combinedDownTo (h : CombinedDownTo lower upper place)
    (hd : upper.HasDistinctKeys) :
    (lower.overlay upper).at? place =
      Option.merge overlay (lower.at? place) (upper.at? place) := by
  induction place generalizing lower upper with
  | nil => rfl
  | cons step rest ih =>
      rw [at?_cons, at?_cons, at?_cons, child?_overlay h.combinable hd]
      cases hx : lower.child? step with
      | none =>
          rw [Option.merge_none_left, Option.bind_none, Option.merge_none_left]
      | some x =>
          cases hy : upper.child? step with
          | none => rw [Option.merge_none_right, Option.bind_none, Option.merge_none_right]
          | some y => exact ih (h.of_cons hx hy) (hd.child hy)

/-- Behind the place where the values part, the upper value has all if it has that place, and the
lower value if not. -/
lemma at?_overlay_of_partAt (h : PartAt lower upper place front) (hd : upper.HasDistinctKeys) :
    (lower.overlay upper).at? place =
      if (upper.at? front).isSome then upper.at? place else lower.at? place := by
  induction front generalizing lower upper place with
  | nil => rw [overlay_of_not_combinable (combinedAt_nil_iff.not.mp h.apart)]; rfl
  | cons step front ih =>
      obtain ⟨rest, rfl⟩ := h.leads
      rw [List.cons_append] at h ⊢
      have hc : Combinable lower upper := h.down.combinable
      have hn : upper.at? (step :: front) = none → upper.at? (step :: (front ++ rest)) = none :=
        at?_eq_none_of_leads h.leads
      rw [at?_cons, at?_cons lower, child?_overlay hc hd]
      cases hy : upper.child? step with
      | none =>
          rw [Option.merge_none_right, at?_cons, hy]
          rfl
      | some y =>
          cases hx : lower.child? step with
          | none =>
              -- the upper value has the child alone; if its way ends early, both have nothing
              rw [Option.merge_none_left, ← hy, ← at?_cons]
              split
              · rfl
              · next hs => exact hn (Option.not_isSome_iff_eq_none.mp hs)
          | some x =>
              have hi := ih (h.of_cons hx hy) (hd.child hy)
              rw [at?_cons, at?_cons, hy]
              exact hi

/-- Where the values are not combined down to a place, they part on the way. -/
lemma exists_partAt (h : ¬ CombinedDownTo lower upper place) :
    ∃ front, PartAt lower upper place front := by
  have hne : {front | front <+: place ∧ front ≠ place
      ∧ ¬ CombinedAt lower upper front}.Nonempty := by
    simpa only [Set.Nonempty, Set.mem_ofPred_eq, CombinedDownTo, not_forall, exists_prop] using h
  obtain ⟨front, ⟨hf, hp, ha⟩, hmin⟩ := WellFounded.has_min (measure List.length).wf _ hne
  refine ⟨front, hf, hp, ?_, ha⟩
  intro other ho hn
  -- what is shorter than the shortest is combined
  by_contra hc
  have hlt : other.length < front.length :=
    lt_of_le_of_ne ho.length_le fun he => hn (ho.eq_of_length he)
  have hop : other ≠ place := by
    rintro rfl
    have hle := hf.length_le
    omega
  exact hmin other ⟨ho.trans hf, hop, hc⟩ hlt

/-- **What stands at a place** of one value laid over another. If the values are combined down to
the place, what they have there is laid over each other; what only one of them has stays; and what
none of them has is missing. If they part on the way, there is a first place where they do, and then
the upper value decides if it has that place, and the lower one if not. What is not combined at all
is the upper value. -/
theorem overlay_at (lower upper : Value) :
    (¬ Combinable lower upper → lower.overlay upper = upper)
    ∧ (upper.HasDistinctKeys → ∀ place,
      (CombinedDownTo lower upper place → (lower.overlay upper).at? place =
        Option.merge overlay (lower.at? place) (upper.at? place))
      ∧ (¬ CombinedDownTo lower upper place → ∃ front, PartAt lower upper place front)
      ∧ ∀ front, PartAt lower upper place front → (lower.overlay upper).at? place =
        if (upper.at? front).isSome then upper.at? place else lower.at? place) := by
  refine ⟨overlay_of_not_combinable, ?_⟩
  intro hd place
  refine ⟨fun h => at?_overlay_of_combinedDownTo h hd, exists_partAt, ?_⟩
  intro front h
  exact at?_overlay_of_partAt h hd

/-- Two arrays under one key, whose first items are laid over each other, while the second ones
part: nothing that was inside the lower one is left. -/
theorem overlay_at_items :
    (Value.boolean true).overlay empty = empty
    ∧ ((object [("a", .array [.null, under "c" .null])]).overlay
        (object [("a", .array [.string "x", .null])])).at? [.key "a", .index 0] =
      some (.string "x")
    ∧ ((object [("a", .array [.null, under "c" .null])]).overlay
        (object [("a", .array [.string "x", .null])])).at? [.key "a", .index 1, .key "c"] =
      none := by
  have hd : (object [("a", .array [.string "x", .null])]).HasDistinctKeys := by
    simp [HasDistinctKeys, ItemsHaveDistinctKeys, EntriesHaveDistinctKeys]
  have hdown : ∀ i, CombinedDownTo (object [("a", .array [.null, under "c" .null])])
      (object [("a", .array [.string "x", .null])]) [.key "a", .index i] := by
    intro i front hf hne
    rw [← List.mem_inits] at hf
    obtain rfl | rfl : front = [] ∨ front = [.key "a"] := by simpa [hne] using hf
    · exact ⟨_, _, rfl, rfl, .objects _ _⟩
    · exact ⟨_, _, rfl, rfl, .arrays _ _⟩
  obtain ⟨-, h⟩ := overlay_at (object [("a", .array [.null, under "c" .null])])
    (object [("a", .array [.string "x", .null])])
  refine ⟨(overlay_at _ _).1 (by rintro ⟨⟩), (h hd _).1 (hdown 0), ?_⟩
  refine (h hd _).2.2 [.key "a", .index 1] ⟨⟨[.key "c"], rfl⟩, by simp, hdown 1, ?_⟩
  rintro ⟨x, y, hx, hy, hc⟩
  obtain rfl := Option.some.inj hy
  exact absurd hc (by rintro ⟨⟩)

end Reshape.Value
