import Reshape.Proofs.Value.Overlay

/-!
Values that are related up to the order of entries, child by child.

* `related_iff_child?`: two objects or two arrays are related exactly if all of their children are.
* `Related.cases`: related values are combined with each other, are numbers, or are the same.
* `Related.refl`, `Related.symm` and `Related.trans`: a relation between numbers passes these on.
* `Related.overlay`: values that are related stay so when related values are laid over them.
-/

namespace Reshape.Value

variable {R : Number → Number → Prop} {a b c a' b' : Value}

/-! ### Values that may be missing -/

section Option

variable {r s t : Value → Value → Prop} {x y z x' y' : Option Value}

lemma isSome_iff_of_rel (h : Option.Rel r x y) : x.isSome ↔ y.isSome := by
  cases h <;> simp

lemma exists_of_rel_some (h : Option.Rel r (some a) y) : ∃ b, y = some b ∧ r a b := by
  cases h with
  | some hab => exact ⟨_, rfl, hab⟩

lemma rel_symm (h : Option.Rel r x y) (hs : ∀ a b, x = some a → y = some b → r a b → s b a) :
    Option.Rel s y x := by
  cases h with
  | none => exact .none
  | some h => exact .some (hs _ _ rfl rfl h)

lemma rel_trans (h : Option.Rel r x y) (h' : Option.Rel s y z)
    (ht : ∀ a b c, x = some a → y = some b → r a b → s b c → t a c) : Option.Rel t x z := by
  cases h with
  | none =>
      cases h'
      exact .none
  | some hab =>
      cases h' with
      | some hbc => exact .some (ht _ _ _ rfl rfl hab hbc)

/-- What is related stays so when it is mapped to what is related. -/
lemma rel_map {α β γ δ : Type} {r : α → β → Prop} {s : γ → δ → Prop} {f : α → γ} {g : β → δ}
    {x : Option α} {y : Option β} (h : Option.Rel r x y)
    (hf : ∀ a b, x = some a → y = some b → r a b → s (f a) (g b)) :
    Option.Rel s (x.map f) (y.map g) := by
  cases h with
  | none => exact .none
  | some h => exact .some (hf _ _ rfl rfl h)

lemma rel_imp {α β : Type} {r s : α → β → Prop} {x : Option α} {y : Option β}
    (h : Option.Rel r x y) (hs : ∀ a b, x = some a → y = some b → r a b → s a b) :
    Option.Rel s x y := by
  cases h with
  | none => exact .none
  | some h => exact .some (hs _ _ rfl rfl h)

lemma map_eq_of_rel {α β : Type} {r : α → α → Prop} {f : α → β} {x y : Option α}
    (h : Option.Rel r x y) (hf : ∀ a b, x = some a → y = some b → r a b → f a = f b) :
    x.map f = y.map f := by
  cases h with
  | none => rfl
  | some h => exact congrArg some (hf _ _ rfl rfl h)

lemma rel_merge {f : Value → Value → Value} (h : Option.Rel r x x') (h' : Option.Rel r y y')
    (hf : ∀ a b a' b', x = some a → y = some b → x' = some a' → y' = some b' → r a a' → r b b' →
      r (f a b) (f a' b')) : Option.Rel r (Option.merge f x y) (Option.merge f x' y') := by
  cases h with
  | none => cases h' with
    | none => exact .none
    | some hb => exact .some hb
  | some ha => cases h' with
    | none => exact .some ha
    | some hb => exact .some (hf _ _ _ _ rfl rfl rfl rfl ha hb)

end Option

/-! ### Child by child -/

lemma relatedItems_iff {as bs : List Value} :
    RelatedItems R as bs ↔ ∀ i : Nat, Option.Rel (Related R) as[i]? bs[i]? := by
  induction as generalizing bs with
  | nil =>
      cases bs with
      | nil => exact iff_of_true trivial fun i => .none
      | cons b bs => exact iff_of_false not_false fun h => nomatch h 0
  | cons a as ih =>
      cases bs with
      | nil => exact iff_of_false not_false fun h => nomatch h 0
      | cons b bs =>
          rw [RelatedItems, ih]
          refine ⟨?_, fun h => ⟨Option.rel_some_some.mp (h 0), fun i => h (i + 1)⟩⟩
          rintro ⟨hf, hr⟩ (_ | i)
          · exact .some hf
          · exact hr i

lemma relatedEntries_iff {as bs : List (String × Value)} :
    RelatedEntries R as bs ↔
      ∀ entry ∈ as, ∃ b, bs.lookup entry.1 = some b ∧ Related R entry.2 b := by
  induction as with
  | nil => simp [RelatedEntries]
  | cons entry rest ih =>
      obtain ⟨key, a⟩ := entry
      rw [RelatedEntries, ih, List.forall_mem_cons]

/-- Two objects are related exactly if the same keys are found in both, with related values. -/
lemma related_object_iff {as bs : List (String × Value)} (hd : (Entries.keys as).Nodup) :
    Related R (.object as) (.object bs) ↔
      ∀ key, Option.Rel (Related R) (as.lookup key) (bs.lookup key) := by
  rw [Related, relatedEntries_iff]
  refine ⟨?_, fun h => ⟨?_, ?_⟩⟩
  · rintro ⟨hk, hv⟩ key
    cases ha : as.lookup key with
    | none =>
        have hb : key ∉ Entries.keys bs := (hk key).not.mp (Entries.lookup_eq_none_iff.mp ha)
        rw [Entries.lookup_eq_none_iff.mpr hb]
        exact .none
    | some a =>
        obtain ⟨b, hb, hab⟩ := hv (key, a) (Entries.mem_of_lookup ha)
        rw [show bs.lookup key = some b from hb]
        exact .some hab
  · intro key
    rw [← Entries.lookup_isSome_iff, ← Entries.lookup_isSome_iff]
    exact isSome_iff_of_rel (h key)
  · intro entry he
    have hk := h entry.1
    rw [(Entries.lookup_eq_some_iff hd).mpr he] at hk
    exact exists_of_rel_some hk

/-- Two objects or two arrays are related exactly if all of their children are. -/
lemma related_iff_child? (h : Combinable a b) (ha : a.HasDistinctKeys) :
    Related R a b ↔ ∀ step, Option.Rel (Related R) (a.child? step) (b.child? step) := by
  cases h with
  | objects as bs =>
      have hd : (Entries.keys as).Nodup := ha.nodup
      rw [related_object_iff hd]
      refine ⟨fun hr step => ?_, fun hr key => hr (.key key)⟩
      cases step with
      | key name => exact hr name
      | index i => exact .none
  | arrays as bs =>
      rw [Related, relatedItems_iff]
      refine ⟨fun hr step => ?_, fun hr i => hr (.index i)⟩
      cases step with
      | key name => exact .none
      | index i => exact hr i

/-! ### Case by case -/

/-- The value is null, a truth value or a text: it is related to itself only. -/
def IsAtom : Value → Prop
  | .null | .boolean _ | .string _ => True
  | _ => False

lemma IsAtom.related (h : a.IsAtom) : Related R a a := by
  cases a with
  | null => trivial
  | boolean _ | string _ => exact (rfl : _ = _)
  | number _ | array _ | object _ => exact False.elim h

/-- The ways in which two values can be related. -/
inductive RelatedCases (R : Number → Number → Prop) : Value → Value → Prop where
  /-- Both are objects, or both are arrays. -/
  | combined {a b : Value} : Combinable a b → RelatedCases R a b
  /-- Both are numbers. -/
  | numbers {m n : Number} : R m n → RelatedCases R (.number m) (.number n)
  /-- They are the same and neither of the two. -/
  | same {a : Value} : a.IsAtom → RelatedCases R a a

lemma Related.cases (h : Related R a b) : RelatedCases R a b := by
  cases a with
  | null => cases b with
    | null => exact .same trivial
    | _ => exact False.elim h
  | boolean x => cases b with
    | boolean y =>
        obtain rfl : x = y := h
        exact .same trivial
    | _ => exact False.elim h
  | string x => cases b with
    | string y =>
        obtain rfl : x = y := h
        exact .same trivial
    | _ => exact False.elim h
  | number m => cases b with
    | number n => exact .numbers h
    | _ => exact False.elim h
  | array as => cases b with
    | array bs => exact .combined (.arrays as bs)
    | _ => exact False.elim h
  | object as => cases b with
    | object bs => exact .combined (.objects as bs)
    | _ => exact False.elim h

/-- Related values are combined with the same values. -/
lemma Related.combinable_iff (h : Related R a b) (c : Value) : Combinable a c ↔ Combinable b c := by
  cases h.cases with
  | combined hab => exact ⟨hab.symm.trans, hab.trans⟩
  | numbers _ => exact iff_of_false (by rintro ⟨⟩) (by rintro ⟨⟩)
  | same _ => exact Iff.rfl

lemma Related.combinable (h : Related R a b) (hc : Combinable a c) : Combinable a b :=
  ((h.combinable_iff a).mp (hc.trans hc.symm)).symm

/-- The children of related values are related, if there are any. -/
lemma Related.child? (h : Related R a b) (ha : a.HasDistinctKeys) (step : Place.Step) :
    Option.Rel (Related R) (a.child? step) (b.child? step) := by
  cases h.cases with
  | combined hc => exact (related_iff_child? hc ha).mp h step
  | numbers _ => exact .none
  | same hs => cases a with
    | null | boolean _ | string _ => exact .none
    | number _ | array _ | object _ => exact False.elim hs

/-! ### Equivalence -/

lemma Related.refl (hR : ∀ n, R n n) (ha : a.HasDistinctKeys) : Related R a a := by
  induction a using ind with
  | h a ih =>
      have hc : Combinable a a → Related R a a := by
        intro hc
        rw [related_iff_child? hc ha]
        intro step
        cases hs : a.child? step with
        | none => exact .none
        | some inner => exact .some (ih step inner hs (ha.child hs))
      cases a with
      | array items => exact hc (.arrays items items)
      | object entries => exact hc (.objects entries entries)
      | number n => exact hR n
      | null | boolean _ | string _ => exact IsAtom.related trivial

lemma Related.symm (hR : ∀ m n, R m n → R n m) (ha : a.HasDistinctKeys) (hb : b.HasDistinctKeys)
    (h : Related R a b) : Related R b a := by
  induction a using ind generalizing b with
  | h a ih =>
      cases h.cases with
      | combined hc =>
          rw [related_iff_child? hc.symm hb]
          exact fun step => rel_symm (h.child? ha step) fun x y hx hy =>
            ih step x hx (ha.child hx) (hb.child hy)
      | numbers hmn => exact hR _ _ hmn
      | same _ => exact h

lemma Related.trans (hR : ∀ k m n, R k m → R m n → R k n) (ha : a.HasDistinctKeys)
    (hb : b.HasDistinctKeys) (hab : Related R a b) (hbc : Related R b c) : Related R a c := by
  induction a using ind generalizing b c with
  | h a ih =>
      cases hab.cases with
      | combined hc =>
          have hc' : Combinable b c := hbc.combinable hc.symm
          rw [related_iff_child? (hc.trans hc') ha]
          exact fun step => rel_trans (hab.child? ha step) (hbc.child? hb step) fun x y z hx hy =>
            ih step x hx (ha.child hx) (hb.child hy)
      | numbers hkm =>
          cases hbc.cases with
          | combined hc => nomatch hc
          | numbers hmn => exact hR _ _ _ hkm hmn
          | same hn => exact False.elim hn
      | same _ => exact hbc

lemma rel_child?_refl (hR : ∀ n, R n n) (ha : a.HasDistinctKeys) (step : Place.Step) :
    Option.Rel (Related R) (a.child? step) (a.child? step) := by
  cases hs : a.child? step with
  | none => exact .none
  | some inner => exact .some (.refl hR (ha.child hs))

/-- Two objects or two arrays with the same children are related to each other. -/
lemma related_of_child?_eq (hR : ∀ n, R n n) (h : Combinable a b) (ha : a.HasDistinctKeys)
    (hc : ∀ step, a.child? step = b.child? step) : Related R a b := by
  rw [related_iff_child? h ha]
  exact fun step => hc step ▸ rel_child?_refl hR ha step

/-! ### Overlaying -/

/-- Related values stay related when related values are laid over them. -/
lemma Related.overlay (ha : a.HasDistinctKeys) (hb : b.HasDistinctKeys) (ha' : a'.HasDistinctKeys)
    (hb' : b'.HasDistinctKeys) (h : Related R a a') (h' : Related R b b') :
    Related R (overlay a b) (overlay a' b') := by
  induction b using ind generalizing a a' b' with
  | h b ih =>
      have hiff : Combinable a b ↔ Combinable a' b' := by
        rw [h.combinable_iff b]
        exact ⟨fun hc => ((h'.combinable_iff a').mp hc.symm).symm,
          fun hc => ((h'.combinable_iff a').mpr hc.symm).symm⟩
      by_cases hc : Combinable a b
      · have hc' := hiff.mp hc
        have hbb : Combinable b b' := h'.combinable hc.symm
        have hoo : Combinable (a.overlay b) (a'.overlay b') :=
          combinable_overlay_iff.mpr (combinable_overlay_iff.mpr hbb.symm).symm
        rw [related_iff_child? hoo (ha.overlay hb)]
        intro step
        rw [child?_overlay hc hb, child?_overlay hc' hb']
        exact rel_merge (h.child? ha step) (h'.child? hb step) fun x y x' y' hx hy hx' hy' =>
          ih step y hy (ha.child hx) (hb.child hy) (ha'.child hx') (hb'.child hy')
      · rwa [overlay_of_not_combinable hc, overlay_of_not_combinable (hiff.not.mp hc)]

end Reshape.Value
