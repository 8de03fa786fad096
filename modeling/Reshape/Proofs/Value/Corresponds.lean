import Mathlib.Data.List.Forall2
import Reshape.Plan.Run
import Reshape.Proofs.Value.Canonical

/-!
Values without repeated keys that are related up to the order of entries.

* `Corresponds`: neither value repeats a key, and the values are related, number by number.
* `Corresponds.refl` and `Corresponds.trans`: a relation between numbers passes these on.
* `Corresponds.array_iff`, `Corresponds.property`, `Corresponds.overlay` and others: what is read
  from values that correspond to each other, or made of them, does so too.
* `Reordered`: neither value repeats a key, and the values are equal up to the order of entries.
-/

namespace Reshape.Value

variable {R : Number → Number → Prop} {a b c a' b' : Value}

/-- The values have no repeated keys and are related, number by number. -/
structure Corresponds (R : Number → Number → Prop) (a b : Value) : Prop where
  /-- The first value repeats no key. -/
  left : a.HasDistinctKeys
  /-- The second value repeats no key. -/
  right : b.HasDistinctKeys
  /-- The values are related up to the order of entries. -/
  related : Related R a b

lemma corresponds_iff :
    Corresponds R a b ↔ a.HasDistinctKeys ∧ b.HasDistinctKeys ∧ Related R a b :=
  ⟨fun ⟨ha, hb, h⟩ => ⟨ha, hb, h⟩, fun ⟨ha, hb, h⟩ => ⟨ha, hb, h⟩⟩

lemma relatedItems_iff_forall₂ {as bs : List Value} :
    RelatedItems R as bs ↔ List.Forall₂ (Related R) as bs := by
  induction as generalizing bs with
  | nil => cases bs <;> simp [RelatedItems]
  | cons a as ih => cases bs <;> simp [RelatedItems, ih]

/-- What holds of all members on either side may be told apart from how the sides are related. -/
lemma forall₂_and_iff {P : Value → Prop} {r : Value → Value → Prop} {as bs : List Value} :
    List.Forall₂ (fun a b => P a ∧ P b ∧ r a b) as bs ↔
      (∀ a ∈ as, P a) ∧ (∀ b ∈ bs, P b) ∧ List.Forall₂ r as bs := by
  induction as generalizing bs with
  | nil => cases bs <;> simp
  | cons a as ih =>
      cases bs with
      | nil => simp
      | cons b bs =>
          simp only [List.forall₂_cons, List.forall_mem_cons, ih]
          tauto

namespace Corresponds

lemma array_iff {as bs : List Value} :
    Corresponds R (.array as) (.array bs) ↔ List.Forall₂ (Corresponds R) as bs := by
  have hc : Corresponds R = fun a b => a.HasDistinctKeys ∧ b.HasDistinctKeys ∧ Related R a b :=
    funext fun _ => funext fun _ => propext corresponds_iff
  rw [corresponds_iff, hasDistinctKeys_array, hasDistinctKeys_array, Related,
    relatedItems_iff_forall₂, hc, forall₂_and_iff]

/-- Both values are arrays with related items, or neither of them is an array. -/
lemma array_or (h : Corresponds R a b) :
    (∃ as bs, a = .array as ∧ b = .array bs ∧ List.Forall₂ (Corresponds R) as bs)
      ∨ (a.items = [] ∧ b.items = []) ∧ a.flat = [a] ∧ b.flat = [b] := by
  cases a with
  | array as => cases b with
    | array bs => exact .inl ⟨as, bs, rfl, rfl, array_iff.mp h⟩
    | _ => exact False.elim h.related
  | _ => cases b with
    | array bs => exact False.elim h.related
    | _ => exact .inr ⟨⟨rfl, rfl⟩, rfl, rfl⟩

lemma flat (h : Corresponds R a b) : List.Forall₂ (Corresponds R) a.flat b.flat := by
  rcases h.array_or with ⟨as, bs, rfl, rfl, hi⟩ | ⟨-, ha, hb⟩
  · exact hi
  · rw [ha, hb]
    exact .cons h .nil

lemma items (h : Corresponds R a b) : List.Forall₂ (Corresponds R) a.items b.items := by
  rcases h.array_or with ⟨as, bs, rfl, rfl, hi⟩ | ⟨⟨ha, hb⟩, -⟩
  · exact hi
  · rw [ha, hb]
    exact .nil

lemma property (h : Corresponds R a b) (name : String) :
    Corresponds R (a.property name) (b.property name) := by
  refine ⟨h.left.property name, h.right.property name, ?_⟩
  have hs := h.related.child? h.left (.key name)
  rw [property_eq_child?, property_eq_child?]
  generalize a.child? (.key name) = x at hs
  generalize b.child? (.key name) = y at hs
  cases hs with
  | none => trivial
  | some hxy => exact hxy

lemma under (h : Corresponds R a b) (key : String) :
    Corresponds R (under key a) (under key b) := by
  refine ⟨h.left.under key, h.right.under key, ?_⟩
  rw [Value.under, Value.under, related_object_iff (by simp)]
  intro name
  rw [Entries.lookup_cons, Entries.lookup_cons]
  by_cases hk : name = key
  · rw [if_pos hk, if_pos hk]
    exact .some h.related
  · rw [if_neg hk, if_neg hk]
    exact .none

lemma refl (hR : ∀ n, R n n) (h : a.HasDistinctKeys) : Corresponds R a a :=
  ⟨h, h, Related.refl hR h⟩

lemma trans (hR : ∀ k m n, R k m → R m n → R k n) (h : Corresponds R a b)
    (h' : Corresponds R b c) : Corresponds R a c :=
  ⟨h.left, h'.right, Related.trans hR h.left h.right h.related h'.related⟩

lemma overlay (h : Corresponds R a a') (h' : Corresponds R b b') :
    Corresponds R (a.overlay b) (a'.overlay b') :=
  ⟨h.left.overlay h'.left, h.right.overlay h'.right,
    h.related.overlay h.left h'.left h.right h'.right h'.related⟩

end Corresponds

lemma corresponds_empty : Corresponds R empty empty := by
  refine ⟨hasDistinctKeys_empty, hasDistinctKeys_empty, ?_⟩
  simp [Value.empty, Related, RelatedEntries]

/-! ### Reordered values -/

/-- No object repeats a key, and the values are equal up to the order of entries. -/
def Reordered : Value → Value → Prop :=
  Corresponds (· = ·)

namespace Reordered

lemma refl (h : a.HasDistinctKeys) : Reordered a a :=
  Corresponds.refl (fun _ => rfl) h

lemma trans (h : Reordered a b) (h' : Reordered b c) : Reordered a c :=
  Corresponds.trans (fun _ _ _ => Eq.trans) h h'

lemma symm (h : Reordered a b) : Reordered b a :=
  ⟨h.right, h.left, Related.symm (fun _ _ => Eq.symm) h.left h.right h.related⟩

lemma nest (h : Reordered a b) (path : List String) : Reordered (a.nest path) (b.nest path) := by
  induction path with
  | nil => exact h
  | cons key path ih => exact Corresponds.under ih key

lemma overlay (h : Reordered a a') (h' : Reordered b b') :
    Reordered (a.overlay b) (a'.overlay b') :=
  Corresponds.overlay h h'

/-- The representative of a value does not depend on the order of entries. -/
lemma canonical?_eq (h : Reordered a b) : a.canonical? = b.canonical? :=
  canonical?_eq_of_related (fun _ _ hmn => congrArg Number.canonical? hmn) h.left h.right h.related

end Reordered

end Reshape.Value
