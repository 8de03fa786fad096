import Reshape.Plan.Run
import Reshape.Proofs.Value.Overlay

/-!
Properties of values that running a plan keeps.

* `Value.IsClosed`: the operations on values keep a property, as long as the keys that are put
  around values are among given ones.
* `distinctFrom_sublist`: what is gathered is found among the values.
* `Selection.Satisfies` and `Plan.Satisfies`: the constants of a plan have the property, and its
  keys are among the given ones.
* `IsClosed.run_plan`: then the output has the property if the input has it.
-/

namespace Reshape

namespace Value

/-- The operations on values keep the property. Values are put under the given keys only. -/
structure IsClosed (P : Value → Prop) (K : String → Prop) : Prop where
  /-- The property of a value has it, also where it is null. -/
  property {value : Value} (name : String) : P value → P (value.property name)
  /-- The items of an array have it. -/
  items {value : Value} : P value → ∀ item ∈ value.items, P item
  /-- An array of values that have it has it. -/
  array {items : List Value} : (∀ item ∈ items, P item) → P (.array items)
  /-- The empty object has it. -/
  empty : P .empty
  /-- A value under one of the keys has it. -/
  under {key : String} {value : Value} : K key → P value → P (under key value)
  /-- Values laid over each other have it. -/
  overlay {lower upper : Value} : P lower → P upper → P (lower.overlay upper)

/-- Values that are no repetitions are found among the values, in the same order. -/
lemma distinctFrom_sublist (seen : Std.HashSet Value) (values : List Value) :
    (distinctFrom seen values).Sublist values := by
  induction values generalizing seen with
  | nil => exact .slnil
  | cons value rest ih =>
      rw [distinctFrom]
      split
      · exact (ih seen).cons_cons value
      · split
        · exact (ih seen).cons value
        · exact (ih _).cons_cons value

namespace IsClosed

variable {P : Value → Prop} {K : String → Prop} {value input item : Value} {groups : List Group}

lemma flat (hP : IsClosed P K) (h : P value) : ∀ item ∈ value.flat, P item := by
  cases value with
  | array items => exact hP.items h
  | _ => simpa [Value.flat] using h

lemma nest (hP : IsClosed P K) {path : List String} (hk : ∀ key ∈ path, K key) (h : P value) :
    P (value.nest path) := by
  induction path with
  | nil => exact h
  | cons key path ih =>
      obtain ⟨hf, hk⟩ := List.forall_mem_cons.mp hk
      exact hP.under hf (ih hk)

lemma overlayAll (hP : IsClosed P K) {values : List Value} (hv : ∀ value ∈ values, P value) :
    P (overlayAll values) :=
  foldl_overlay_of_closed hP.overlay hP.empty hv

lemma gather (hP : IsClosed P K) (h : P input) (name : String) : P (input.gather name) := by
  refine hP.array fun value hv => ?_
  have hm := (distinctFrom_sublist ∅ _).mem hv
  obtain ⟨item, hi, hv⟩ := List.mem_flatMap.mp hm
  exact hP.flat (hP.property name (hP.items h item hi)) value hv

lemma record (hP : IsClosed P K) (hg : ∀ group ∈ groups, ∀ key ∈ group.path, K key) (h : P item) :
    P (record groups item) := by
  refine hP.overlayAll (List.forall_mem_map.mpr fun group hm => ?_)
  exact hP.nest (hg group hm) (hP.property group.property h)

lemma records (hP : IsClosed P K) (hg : ∀ group ∈ groups, ∀ key ∈ group.path, K key)
    (h : P input) : P (input.records groups) :=
  hP.array (List.forall_mem_map.mpr fun item hm => hP.record hg (hP.items h item hm))

end IsClosed

end Value

/-! ### Plans -/

variable {P : Value → Prop} {K : String → Prop} {input : Value}

/-- What is taken without the input has the property, and the keys of objects are among the given
ones. -/
def Selection.Satisfies (P : Value → Prop) (K : String → Prop) : Selection → Prop
  | .constant value => P value
  | .records groups => ∀ group ∈ groups, ∀ key ∈ group.path, K key
  | _ => True

/-- What is taken without the input has the property, and all keys are among the given ones. -/
def Part.Satisfies (P : Value → Prop) (K : String → Prop) (part : Part) : Prop :=
  part.selection.Satisfies P K ∧ ∀ key ∈ part.path, K key

/-- The constants of the plan have the property, and all of its keys are among the given ones. -/
def Plan.Satisfies (P : Value → Prop) (K : String → Prop) : Plan → Prop
  | .empty => True
  | .single part => part.Satisfies P K
  | .columns groups => (Selection.records groups).Satisfies P K
  | .merge parts => ∀ part ∈ parts, part.Satisfies P K

namespace Value.IsClosed

lemma run_selection (hP : IsClosed P K) {selection : Selection} (hs : selection.Satisfies P K)
    (h : P input) : P (selection.run input) := by
  cases selection with
  | input => exact h
  | property name => exact hP.property name h
  | constant value => exact hs
  | gather name => exact hP.gather h name
  | records groups => exact hP.records hs h

lemma run_part (hP : IsClosed P K) {part : Part} (hs : part.Satisfies P K) (h : P input) :
    P (part.run input) :=
  hP.nest hs.2 (hP.run_selection hs.1 h)

/-- **Running a plan keeps closed properties**: the output has the property if the input and the
constants of the plan have it and the keys of the plan are among those it is closed under. -/
theorem run_plan (hP : IsClosed P K) {plan : Plan} (hs : plan.Satisfies P K) (h : P input) :
    P (plan.run input) := by
  cases plan with
  | empty => exact hP.empty
  | single part => exact hP.run_part hs h
  | columns groups => exact hP.records hs h
  | merge parts =>
      refine hP.overlayAll (List.forall_mem_map.mpr fun part hm => ?_)
      exact hP.run_part (hs part hm) h

end Value.IsClosed

end Reshape
