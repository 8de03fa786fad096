import Reshape.Proofs.Plan.Distinct
import Reshape.Proofs.Value.Canonical
import Reshape.Proofs.Value.Corresponds

/-!
Relations between values that running a plan respects.

* `Value.IsCongruence`: the operations on values take related values to related ones.
* `isCongruence_eq` and `isCongruence_corresponds`: equality is such a relation, and so is being the
  same up to the order of entries and up to related numbers.
* `Selection.Agree` and `Plan.Agree`: two inputs are related in all that is read from them.
* `IsCongruence.run_plan`: the outputs of such inputs are related.
-/

namespace Reshape

namespace Value

/-- The operations on values take related values to related ones. Related values are repetitions of
the same values, so that it is the same ones that are dropped. -/
structure IsCongruence (r : Value → Value → Prop) : Prop where
  /-- Related values have the same representative, or both have none. -/
  canonical?_eq {a b : Value} : r a b → a.canonical? = b.canonical?
  /-- Two arrays have related items, and only arrays are related to arrays. -/
  flat {a b : Value} : r a b → List.Forall₂ r a.flat b.flat
  /-- Arrays with related items are related. -/
  array {as bs : List Value} : List.Forall₂ r as bs → r (.array as) (.array bs)
  /-- The empty object is related to itself. -/
  empty : r .empty .empty
  /-- Related values are related under a key. -/
  under {a b : Value} (key : String) : r a b → r (under key a) (under key b)
  /-- Related values that are laid over related values give related values. -/
  overlay {a b a' b' : Value} : r a a' → r b b' → r (a.overlay b) (a'.overlay b')

/-! ### Equality -/

lemma isCongruence_eq : IsCongruence (· = ·) where
  canonical?_eq h := congrArg canonical? h
  flat h := h ▸ List.forall₂_same.mpr fun _ _ => rfl
  array h := by rw [List.forall₂_eq_eq_eq] at h; exact congrArg Value.array h
  empty := rfl
  under key h := congrArg (Value.under key) h
  overlay h h' := h ▸ h' ▸ rfl

/-! ### Related values without repeated keys -/

variable {R : Number → Number → Prop} {a b a' b' : Value}

lemma isCongruence_corresponds (hR : ∀ m n, R m n → m.canonical? = n.canonical?) :
    IsCongruence (Corresponds R) where
  canonical?_eq h := canonical?_eq_of_related hR h.left h.right h.related
  flat h := h.flat
  array h := Corresponds.array_iff.mpr h
  empty := corresponds_empty
  under key h := h.under key
  overlay h h' := h.overlay h'

/-! ### Operations on values -/

variable {r : Value → Value → Prop}

namespace IsCongruence

lemma nest (hr : IsCongruence r) (h : r a b) (path : List String) :
    r (a.nest path) (b.nest path) := by
  induction path with
  | nil => exact h
  | cons key path ih => exact hr.under key ih

lemma foldl_overlay (hr : IsCongruence r) {as bs : List Value} (h : List.Forall₂ r as bs)
    {lower lower' : Value} (hl : r lower lower') :
    r (as.foldl Value.overlay lower) (bs.foldl Value.overlay lower') := by
  induction h generalizing lower lower' with
  | nil => exact hl
  | cons hab _ ih => exact ih (hr.overlay hl hab)

lemma overlayAll (hr : IsCongruence r) {as bs : List Value} (h : List.Forall₂ r as bs) :
    r (overlayAll as) (overlayAll bs) :=
  hr.foldl_overlay h hr.empty

/-- The same ones of related values are repetitions of earlier ones. -/
lemma distinctFrom (hr : IsCongruence r) {as bs : List Value} (h : List.Forall₂ r as bs)
    (seen : Std.HashSet Value) :
    List.Forall₂ r (distinctFrom seen as) (distinctFrom seen bs) := by
  induction h generalizing seen with
  | nil => exact .nil
  | cons hab _ ih =>
      rw [Value.distinctFrom, Value.distinctFrom, hr.canonical?_eq hab]
      split
      · exact .cons hab (ih seen)
      · split
        · exact ih seen
        · exact .cons hab (ih _)

lemma gather (hr : IsCongruence r) {name : String}
    (h : List.Forall₂ (fun x y => r (x.property name) (y.property name)) a.items b.items) :
    r (a.gather name) (b.gather name) :=
  hr.array (hr.distinctFrom (List.rel_flatMap h fun _ _ hxy => hr.flat hxy) ∅)

lemma records (hr : IsCongruence r) {groups : List Group}
    (h : List.Forall₂ (fun x y => ∀ group ∈ groups,
      r (x.property group.property) (y.property group.property)) a.items b.items) :
    r (a.records groups) (b.records groups) := by
  refine hr.array ?_
  rw [List.forall₂_map_left_iff, List.forall₂_map_right_iff]
  refine h.imp fun x y hxy => hr.overlayAll ?_
  rw [List.forall₂_map_left_iff, List.forall₂_map_right_iff, List.forall₂_same]
  exact fun group hg => hr.nest (hxy group hg) group.path

end IsCongruence

end Value

/-! ### Plans -/

variable {r : Value → Value → Prop} {v w : Value}

/-- The inputs are related in all that is taken from them, and so is a constant to itself. -/
def Selection.Agree (r : Value → Value → Prop) (v w : Value) : Selection → Prop
  | .input => r v w
  | .property name => r (v.property name) (w.property name)
  | .constant value => r value value
  | .gather name =>
    List.Forall₂ (fun x y => r (x.property name) (y.property name)) v.items w.items
  | .records groups =>
    List.Forall₂ (fun x y => ∀ group ∈ groups,
      r (x.property group.property) (y.property group.property)) v.items w.items

/-- The inputs are related in all that the plan reads from them. -/
def Plan.Agree (r : Value → Value → Prop) (v w : Value) : Plan → Prop
  | .empty => True
  | .single part => part.selection.Agree r v w
  | .columns groups => (Selection.records groups).Agree r v w
  | .merge parts => ∀ part ∈ parts, part.selection.Agree r v w

namespace Value.IsCongruence

lemma run_selection (hr : IsCongruence r) {selection : Selection} (h : selection.Agree r v w) :
    r (selection.run v) (selection.run w) := by
  cases selection with
  | input => exact h
  | property name => exact h
  | constant value => exact h
  | gather name => exact hr.gather h
  | records groups => exact hr.records h

/-- **Running a plan respects congruences**: inputs that are related in all that the plan reads from
them give related outputs. -/
theorem run_plan (hr : IsCongruence r) {plan : Plan} (h : plan.Agree r v w) :
    r (plan.run v) (plan.run w) := by
  cases plan with
  | empty => exact hr.empty
  | single part => exact hr.nest (hr.run_selection h) part.path
  | columns groups => exact hr.records h
  | merge parts =>
      refine hr.overlayAll ?_
      rw [List.forall₂_map_left_iff, List.forall₂_map_right_iff, List.forall₂_same]
      exact fun part hp => hr.nest (hr.run_selection (h part hp)) part.path

end Value.IsCongruence

end Reshape
