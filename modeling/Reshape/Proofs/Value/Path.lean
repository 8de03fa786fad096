import Reshape.Proofs.Value.Related

/-!
Overlaying a value under a path of keys.

* `Incomparable.ind`: where incomparable paths part.
* `child?_overlay_under` and `property_overlay_under`: only the value under the key changes.
* `follow_overlay_nest` and `follow_overlay_nest_of_incomparable`: at the end of the path, the value
  is laid over what was there, and at the ends of incomparable paths nothing changes.
* `prefix_or_at?_of_overlay_nest`: what is new lies below the end of the path.
* `HasRoom`: along the path there is nothing but objects, and nothing at its end, so that the values
  may be laid over each other from either end (`HasRoom.compatible`).
* `similar_overlay_nest_comm`: incomparable paths may change places.
-/

namespace Reshape

/-! ### Incomparable paths -/

lemma Incomparable.symm {p q : List String} (h : Incomparable p q) : Incomparable q p :=
  And.symm h

lemma incomparable_cons_iff {k l : String} {p q : List String} :
    Incomparable (k :: p) (l :: q) ↔ (k = l → Incomparable p q) := by
  rw [Incomparable, List.cons_prefix_cons, List.cons_prefix_cons]
  refine ⟨?_, fun h => ⟨?_, ?_⟩⟩
  · rintro ⟨hpq, hqp⟩ rfl
    exact ⟨fun h => hpq ⟨rfl, h⟩, fun h => hqp ⟨rfl, h⟩⟩
  · exact fun hp => (h hp.1).1 hp.2
  · exact fun hq => (h hq.1.symm).2 hq.2

lemma not_incomparable_nil (p : List String) : ¬ Incomparable [] p :=
  fun h => h.1 List.nil_prefix

/-- Incomparable paths go different ways at once, or have the same first key and go different ways
behind it. -/
@[elab_as_elim]
theorem Incomparable.ind {P : ∀ p q, Incomparable p q → Prop}
    (apart : ∀ k l p q (hk : k ≠ l),
      P (k :: p) (l :: q) (incomparable_cons_iff.mpr fun h => absurd h hk))
    (inside : ∀ k p q (h : Incomparable p q), P p q h →
      P (k :: p) (k :: q) (incomparable_cons_iff.mpr fun _ => h)) {p q : List String}
    (h : Incomparable p q) : P p q h := by
  induction p generalizing q with
  | nil => exact absurd h (not_incomparable_nil q)
  | cons k p ih =>
      cases q with
      | nil => exact absurd h.symm (not_incomparable_nil (k :: p))
      | cons l q =>
          by_cases hk : k = l
          · subst hk
            exact inside k p q _ (ih (incomparable_cons_iff.mp h rfl))
          · exact apart k l p q hk

namespace Value

/-! ### One key -/

lemma child?_under (key name : String) (value : Value) :
    (under key value).child? (.key name) = if name = key then some value else none := by
  rw [under, child?, Entries.lookup_cons, List.lookup_nil]

/-- What lies under a key has no other child. -/
lemma eq_of_child?_under {key : String} {value inner : Value} {step : Place.Step}
    (h : (under key value).child? step = some inner) : step = .key key ∧ inner = value := by
  cases step with
  | index i => exact absurd h (by simp [under, child?])
  | key name =>
      rw [child?_under] at h
      by_cases hk : name = key
      · rw [if_pos hk, Option.some.injEq] at h
        exact ⟨by rw [hk], h.symm⟩
      · rw [if_neg hk] at h
        exact absurd h (by simp)

/-- Laying a value under a key over another one changes what is under this key. -/
lemma child?_overlay_under (lower value : Value) (key name : String) :
    (lower.overlay (under key value)).child? (.key name) =
      if name = key then some ((lower.property key).overlay value)
        else lower.child? (.key name) := by
  cases lower with
  | object entries =>
      rw [under, overlay, child?, lookup_overlayEntries (by simp), Entries.lookup_cons, property]
      by_cases hk : name = key
      · subst hk
        rw [if_pos rfl, if_pos rfl]
        cases hl : entries.lookup name with
        | none => exact congrArg some (overlay_null value).symm
        | some below => rfl
      · rw [if_neg hk, if_neg hk, List.lookup_nil, Option.merge_none_right]
        rfl
  | _ =>
      rw [overlay_of_not_combinable (by rintro ⟨⟩), child?_under]
      by_cases hk : name = key
      · rw [if_pos hk, if_pos hk]
        exact congrArg some (overlay_null value).symm
      · rw [if_neg hk, if_neg hk]
        rfl

lemma property_overlay_under (lower value : Value) (key name : String) :
    (lower.overlay (under key value)).property name =
      if name = key then (lower.property key).overlay value else lower.property name := by
  rw [property_eq_child?, property_eq_child? lower name, child?_overlay_under]
  by_cases hk : name = key
  · rw [if_pos hk, if_pos hk]
    rfl
  · rw [if_neg hk, if_neg hk]

/-- What lies under a key makes an object of whatever it is laid over. -/
lemma exists_overlay_under_eq (lower value : Value) (key : String) :
    ∃ entries, lower.overlay (under key value) = .object entries := by
  cases lower with
  | object entries => exact ⟨_, by rw [under, overlay]⟩
  | _ => exact ⟨_, by rw [overlay_of_not_combinable (by rintro ⟨⟩), under]⟩

lemma child?_index_overlay_under (lower value : Value) (key : String) (i : Nat) :
    (lower.overlay (under key value)).child? (.index i) = none := by
  obtain ⟨entries, he⟩ := exists_overlay_under_eq lower value key
  rw [he]
  rfl

/-! ### Following a path -/

@[simp] lemma follow_nil (value : Value) : value.follow [] = value := rfl

@[simp] lemma follow_cons (value : Value) (key : String) (path : List String) :
    value.follow (key :: path) = (value.property key).follow path := rfl

lemma follow_null (path : List String) : null.follow path = .null := by
  induction path with
  | nil => rfl
  | cons key path ih => exact ih

/-- At the end of its path, the value is laid over what was there. -/
lemma follow_overlay_nest (lower value : Value) (path : List String) :
    (lower.overlay (value.nest path)).follow path = (lower.follow path).overlay value := by
  induction path generalizing lower with
  | nil => rfl
  | cons key path ih =>
      rw [nest_cons, follow_cons, property_overlay_under, if_pos rfl, ih, follow_cons]

/-- At the end of an incomparable path, nothing changes. -/
lemma follow_overlay_nest_of_incomparable (lower value : Value) {p q : List String}
    (h : Incomparable p q) : (lower.overlay (value.nest q)).follow p = lower.follow p := by
  induction h using Incomparable.ind generalizing lower with
  | apart k l p q hk =>
      rw [nest_cons, follow_cons, property_overlay_under, if_neg hk, follow_cons]
  | inside k p q _ ih =>
      rw [nest_cons, follow_cons, property_overlay_under, if_pos rfl, ih, follow_cons]

/-! ### Leaves -/

lemma IsLeaf.child?_eq_none {value : Value} (h : value.IsLeaf) (step : Place.Step) :
    value.child? step = none := by
  cases value with
  | array items =>
      obtain rfl : items = [] := h
      cases step <;> rfl
  | object entries =>
      obtain rfl : entries = [] := h
      cases step <;> rfl
  | _ => rfl

lemma at?_null {place : Place} (h : place ≠ []) : null.at? place = none := by
  cases place with
  | nil => exact absurd rfl h
  | cons step rest => rfl

/-- Inside a property is what is inside the value under its name. -/
lemma at?_property (value : Value) (name : String) {rest : Place} (h : rest ≠ []) :
    (value.property name).at? rest = value.at? (.key name :: rest) := by
  rw [property_eq_child?, at?]
  cases value.child? (.key name) with
  | none => exact at?_null h
  | some inner => rfl

/-- A leaf of what a value under a path is laid over something lies at the end of the path or below,
or was there before. -/
lemma prefix_or_at?_of_overlay_nest {lower value leaf : Value} {path : List String} {place : Place}
    (h : (lower.overlay (value.nest path)).at? place = some leaf) (hl : leaf.IsLeaf) :
    path.map .key <+: place ∨ place ≠ [] ∧ lower.at? place = some leaf := by
  induction path generalizing lower place with
  | nil => exact .inl List.nil_prefix
  | cons key path ih =>
      rw [nest_cons] at h
      have hk := child?_overlay_under lower (value.nest path) key
      cases place with
      | nil =>
          -- the whole is an object with something under the key
          obtain rfl : _ = leaf := Option.some.inj h
          have hn := hk key
          rw [if_pos rfl, hl.child?_eq_none] at hn
          exact absurd hn (by simp)
      | cons step rest =>
          obtain ⟨inner, hi, hr⟩ := Option.bind_eq_some_iff.mp h
          cases step with
          | index i =>
              exact absurd (hi.symm.trans (child?_index_overlay_under _ _ _ _)) (by simp)
          | key name =>
              rw [hk] at hi
              by_cases hn : name = key
              · rw [if_pos hn, Option.some.injEq] at hi
                subst hi
                rcases ih hr with hp | ⟨hne, ha⟩
                · exact .inl (List.cons_prefix_cons.mpr ⟨by rw [hn], hp⟩)
                · rw [at?_property lower key hne] at ha
                  exact .inr ⟨List.cons_ne_nil _ _, hn ▸ ha⟩
              · rw [if_neg hn] at hi
                refine .inr ⟨List.cons_ne_nil _ _, ?_⟩
                rw [at?, hi]
                exact hr

/-! ### Room for a path -/

/-- Along the path there is nothing but objects, and nothing at its end. -/
def HasRoom : List String → Value → Prop
  | [], _ => False
  | key :: path, value =>
    (∃ entries, value = .object entries)
      ∧ ∀ inner, value.child? (.key key) = some inner → HasRoom path inner

lemma hasRoom_empty {path : List String} (h : path ≠ []) : HasRoom path empty := by
  cases path with
  | nil => exact absurd rfl h
  | cons key path => exact ⟨⟨[], rfl⟩, fun inner hi => absurd hi (by simp [empty, child?])⟩

lemma hasRoom_nest {p q : List String} (h : Incomparable p q) (value : Value) :
    HasRoom p (value.nest q) := by
  induction h using Incomparable.ind with
  | apart k l p q hk =>
      exact ⟨⟨_, rfl⟩, fun inner hi => absurd (Place.Step.key.inj (eq_of_child?_under hi).1) hk⟩
  | inside k p q _ ih =>
      refine ⟨⟨_, rfl⟩, fun inner hi => ?_⟩
      obtain ⟨-, rfl⟩ := eq_of_child?_under hi
      exact ih

/-- Overlaying a value under an incomparable path leaves the room. -/
lemma HasRoom.overlay_nest {p q : List String} {lower : Value} (h : HasRoom p lower)
    (hi : Incomparable p q) (value : Value) : HasRoom p (lower.overlay (value.nest q)) := by
  induction hi using Incomparable.ind generalizing lower with
  | apart k l p q hk =>
      refine ⟨exists_overlay_under_eq lower (value.nest q) l, fun inner hc => ?_⟩
      rw [nest_cons, child?_overlay_under, if_neg hk] at hc
      exact h.2 inner hc
  | inside k p q hpq ih =>
      refine ⟨exists_overlay_under_eq lower (value.nest q) k, fun inner hc => ?_⟩
      rw [nest_cons, child?_overlay_under, if_pos rfl, Option.some.injEq, property_eq_child?] at hc
      subst hc
      cases hb : lower.child? (.key k) with
      | none =>
          rw [Option.getD_none, overlay_null]
          exact hasRoom_nest hpq value
      | some below => exact ih (h.2 below hb)

/-- Where there is room for a path, what lies under it may be laid on top before or after the rest
is laid over anything else. -/
lemma HasRoom.compatible {path : List String} {b : Value} (h : HasRoom path b) (a value : Value) :
    Compatible a b (value.nest path) := by
  induction path generalizing a b with
  | nil => exact absurd h not_false
  | cons key path ih =>
      by_cases hac : Combinable a (under key (value.nest path))
      · obtain ⟨⟨entries, rfl⟩, h⟩ := h
        refine .inside (hac.trans (.objects _ entries)) (.objects _ _) fun step x y z _ hy hz => ?_
        obtain ⟨rfl, rfl⟩ := eq_of_child?_under hz
        exact ih (h y hy) x
      · exact .apart hac

/-! ### Changing places -/

lemma combinable_overlay_under (x y v w : Value) (k l : String) :
    Combinable (x.overlay (under k v)) (y.overlay (under l w)) := by
  obtain ⟨_, hx⟩ := exists_overlay_under_eq x v k
  obtain ⟨_, hy⟩ := exists_overlay_under_eq y w l
  rw [hx, hy]
  exact .objects _ _

/-- Values under different keys may be laid over another value in either order. -/
lemma child?_overlay_under_comm (lower v w : Value) {k l : String} (h : k ≠ l)
    (step : Place.Step) :
    ((lower.overlay (under k v)).overlay (under l w)).child? step =
      ((lower.overlay (under l w)).overlay (under k v)).child? step := by
  cases step with
  | index i => rw [child?_index_overlay_under, child?_index_overlay_under]
  | key name =>
      simp only [child?_overlay_under, property_overlay_under, if_neg h, if_neg h.symm]
      by_cases hk : name = k
      · rw [if_neg (hk ▸ h), if_pos hk, if_pos hk]
      · rw [if_neg hk, if_neg hk]

/-- Values under incomparable paths may be laid over another value in either order. -/
lemma similar_overlay_nest_comm {p q : List String} {lower a b : Value} (h : Incomparable p q)
    (hl : lower.HasDistinctKeys) (ha : a.HasDistinctKeys) (hb : b.HasDistinctKeys) :
    Similar ((lower.overlay (a.nest p)).overlay (b.nest q))
      ((lower.overlay (b.nest q)).overlay (a.nest p)) := by
  have hd := (hl.overlay (ha.nest p)).overlay (hb.nest q)
  induction h using Incomparable.ind generalizing lower with
  | apart k l p q hk =>
      exact related_of_child?_eq (fun _ => rfl) (combinable_overlay_under _ _ _ _ _ _) hd
        (child?_overlay_under_comm lower _ _ hk)
  | inside k p q _ ih =>
      refine (related_iff_child? (combinable_overlay_under _ _ _ _ _ _) hd).mpr fun step => ?_
      cases step with
      | index i =>
          rw [nest_cons, nest_cons, child?_index_overlay_under, child?_index_overlay_under]
          exact .none
      | key name =>
          simp only [nest_cons, child?_overlay_under, property_overlay_under, if_true]
          by_cases hn : name = k
          · rw [if_pos hn, if_pos hn]
            have hp := hl.property k
            exact .some (ih hp ((hp.overlay (ha.nest p)).overlay (hb.nest q)))
          · simp only [if_neg hn]
            exact rel_child?_refl (fun _ => rfl) hl _

end Value

end Reshape
