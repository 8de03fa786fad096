import Reshape.Proofs.Value.Related
import Reshape.Value.Canonical

/-!
Representatives of values, child by child.

* `child?_canonical?`: the children of a representative are the representatives of the children.
* `canonical?_eq_of_child?`: two objects or two arrays whose children have the same representatives
  have the same one.
* `canonical?_eq_of_related`: so have values that are related, if related numbers have.
* `Number.Alike` and `alike_iff_related`: two values mean the same exactly if they are related up to
  the order of entries and their numbers have the same representative.
-/

namespace Reshape

/-- The numbers have the same representative. -/
def Number.Alike (m n : Number) : Prop :=
  ∃ number, m.canonical? = some number ∧ n.canonical? = some number

lemma Number.Alike.canonical?_eq {m n : Number} (h : m.Alike n) : m.canonical? = n.canonical? := by
  obtain ⟨number, hm, hn⟩ := h
  rw [hm, hn]

namespace Value

variable {a b c d : Value}

/-! ### Items and entries -/

/-- Items have representatives if each of them has one, and these are found in the same places. -/
lemma getElem?_canonicalItems? {items values : List Value} (h : canonicalItems? items = some values)
    (i : Nat) : values[i]? = items[i]?.bind canonical? := by
  induction items generalizing values i with
  | nil =>
      obtain rfl : [] = values := Option.some.inj h
      rfl
  | cons item rest ih =>
      rw [canonicalItems?] at h
      split at h
      · next value more hv hm =>
          obtain rfl := Option.some.inj h
          cases i with
          | zero => exact hv.symm
          | succ i => exact ih hm i
      · exact absurd h (by simp)

lemma canonicalItems?_isSome_iff {items : List Value} :
    (canonicalItems? items).isSome ↔ ∀ item ∈ items, item.canonical?.isSome := by
  induction items with
  | nil => simp [canonicalItems?]
  | cons item rest ih =>
      rw [canonicalItems?, List.forall_mem_cons, ← ih]
      cases item.canonical? <;> cases canonicalItems? rest <;> simp

lemma lookup_canonicalEntries? {entries found : List (String × Value)}
    (h : canonicalEntries? entries = some found) (key : String) :
    found.lookup key = (entries.lookup key).bind canonical? := by
  induction entries generalizing found with
  | nil =>
      obtain rfl : [] = found := Option.some.inj h
      rfl
  | cons entry rest ih =>
      obtain ⟨first, value⟩ := entry
      rw [canonicalEntries?] at h
      split at h
      · next representative more hv hm =>
          obtain rfl := Option.some.inj h
          rw [Entries.lookup_cons, Entries.lookup_cons]
          by_cases hk : key = first
          · rw [if_pos hk, if_pos hk, Option.bind_some, hv]
          · rw [if_neg hk, if_neg hk, ih hm]
      · exact absurd h (by simp)

lemma keys_canonicalEntries? {entries found : List (String × Value)}
    (h : canonicalEntries? entries = some found) : Entries.keys found = Entries.keys entries := by
  induction entries generalizing found with
  | nil =>
      obtain rfl : [] = found := Option.some.inj h
      rfl
  | cons entry rest ih =>
      obtain ⟨first, value⟩ := entry
      rw [canonicalEntries?] at h
      split at h
      · next representative more _ hm =>
          obtain rfl := Option.some.inj h
          rw [Entries.keys_cons, Entries.keys_cons, ih hm]
      · exact absurd h (by simp)

lemma canonicalEntries?_isSome_iff {entries : List (String × Value)} :
    (canonicalEntries? entries).isSome ↔ ∀ entry ∈ entries, entry.2.canonical?.isSome := by
  induction entries with
  | nil => simp [canonicalEntries?]
  | cons entry rest ih =>
      obtain ⟨key, value⟩ := entry
      rw [canonicalEntries?, List.forall_mem_cons, ← ih]
      cases value.canonical? <;> cases canonicalEntries? rest <;> simp

/-! ### Child by child -/

lemma canonical?_array_eq_some_iff {items : List Value} :
    (array items).canonical? = some c ↔ ∃ values, canonicalItems? items = some values
      ∧ c = .array values := by
  rw [canonical?, Option.map_eq_some_iff]
  simp only [eq_comm]

lemma canonical?_object_eq_some_iff {entries : List (String × Value)} :
    (object entries).canonical? = some c ↔ ∃ found, canonicalEntries? entries = some found
      ∧ c = .object (Entries.sort found) := by
  rw [canonical?, Option.map_eq_some_iff]
  simp only [eq_comm]

/-- A representative is combined with the same values as the value itself. -/
lemma combinable_canonical?_iff (h : a.canonical? = some c) : Combinable c b ↔ Combinable a b := by
  cases a with
  | array items =>
      obtain ⟨values, -, rfl⟩ := canonical?_array_eq_some_iff.mp h
      exact ⟨fun hc => Combinable.trans (.arrays _ _) hc,
        fun hc => Combinable.trans (.arrays _ _) hc⟩
  | object entries =>
      obtain ⟨found, -, rfl⟩ := canonical?_object_eq_some_iff.mp h
      exact ⟨fun hc => Combinable.trans (.objects _ _) hc,
        fun hc => Combinable.trans (.objects _ _) hc⟩
  | number n =>
      obtain ⟨r, -, rfl⟩ := Option.map_eq_some_iff.mp h
      exact iff_of_false (by rintro ⟨⟩) (by rintro ⟨⟩)
  | null | boolean _ | string _ =>
      obtain rfl := Option.some.inj h
      exact Iff.rfl

/-- The children of a representative are the representatives of the children. -/
lemma child?_canonical? (ha : a.HasDistinctKeys) (h : a.canonical? = some c) (step : Place.Step) :
    c.child? step = (a.child? step).bind canonical? := by
  cases a with
  | array items =>
      obtain ⟨values, hv, rfl⟩ := canonical?_array_eq_some_iff.mp h
      cases step with
      | key name => rfl
      | index i => exact getElem?_canonicalItems? hv i
  | object entries =>
      obtain ⟨found, hf, rfl⟩ := canonical?_object_eq_some_iff.mp h
      cases step with
      | index i => rfl
      | key name =>
          have hd : (Entries.keys found).Nodup := keys_canonicalEntries? hf ▸ ha.nodup
          have hp := Entries.sort_perm found
          have hs : (Entries.keys (Entries.sort found)).Nodup :=
            (Entries.keys_perm hp).nodup_iff.mpr hd
          show (Entries.sort found).lookup name = (entries.lookup name).bind canonical?
          rw [Entries.lookup_eq_of_perm hs hp, lookup_canonicalEntries? hf]
  | number n =>
      obtain ⟨r, -, rfl⟩ := Option.map_eq_some_iff.mp h
      rfl
  | null | boolean _ | string _ =>
      obtain rfl := Option.some.inj h
      rfl

/-- An object or an array has a representative exactly if all of its children have one. -/
lemma canonical?_isSome_iff (h : Combinable a b) (ha : a.HasDistinctKeys) :
    a.canonical?.isSome ↔
      ∀ step inner, a.child? step = some inner → inner.canonical?.isSome := by
  cases h with
  | arrays as bs =>
      rw [canonical?, Option.isSome_map, canonicalItems?_isSome_iff]
      refine ⟨fun hi step inner hc => ?_, fun hi item hm => ?_⟩
      · cases step with
        | key name => exact absurd hc (by simp [child?])
        | index i => exact hi inner (mem_items_of_child? hc)
      · obtain ⟨i, hm⟩ := List.mem_iff_getElem?.mp hm
        exact hi (.index i) item hm
  | objects as bs =>
      rw [canonical?, Option.isSome_map, canonicalEntries?_isSome_iff]
      refine ⟨fun he step inner hc => ?_, fun hi entry hm => ?_⟩
      · cases step with
        | key name => exact he (name, inner) (mem_entries_of_child? hc)
        | index i => exact absurd hc (by simp [child?])
      · exact hi (.key entry.1) entry.2 ((Entries.lookup_eq_some_iff ha.nodup).mpr hm)

/-- Representatives of two objects or of two arrays are the same if they have the same children. -/
lemma canonical_eq_of_child? (h : Combinable a b) (ha : a.HasDistinctKeys) (hb : b.HasDistinctKeys)
    (hc : a.canonical? = some c) (hd : b.canonical? = some d)
    (hcd : ∀ step, c.child? step = d.child? step) : c = d := by
  cases h with
  | arrays as bs =>
      obtain ⟨values, -, rfl⟩ := canonical?_array_eq_some_iff.mp hc
      obtain ⟨others, -, rfl⟩ := canonical?_array_eq_some_iff.mp hd
      exact congrArg array (List.ext_getElem? fun i => hcd (.index i))
  | objects as bs =>
      obtain ⟨found, hf, rfl⟩ := canonical?_object_eq_some_iff.mp hc
      obtain ⟨others, ho, rfl⟩ := canonical?_object_eq_some_iff.mp hd
      have hnf : (Entries.keys found).Nodup := keys_canonicalEntries? hf ▸ ha.nodup
      have hno : (Entries.keys others).Nodup := keys_canonicalEntries? ho ▸ hb.nodup
      refine congrArg object (Entries.sort_eq_of_lookup hnf hno fun key => ?_)
      rw [lookup_canonicalEntries? hf, lookup_canonicalEntries? ho]
      have hk := hcd (.key key)
      rwa [child?_canonical? ha hc, child?_canonical? hb hd] at hk

/-- Two objects or two arrays whose children have the same representatives have the same one. -/
lemma canonical?_eq_of_child? (h : Combinable a b) (ha : a.HasDistinctKeys)
    (hb : b.HasDistinctKeys)
    (hc : ∀ step, (a.child? step).map canonical? = (b.child? step).map canonical?) :
    a.canonical? = b.canonical? := by
  have hmap : ∀ {x y : Option Value}, x.map canonical? = y.map canonical? →
      (∀ inner, x = some inner → inner.canonical?.isSome) →
      ∀ inner, y = some inner → inner.canonical?.isSome := by
    rintro x y hxy hx inner rfl
    obtain ⟨other, rfl, ho⟩ := Option.map_eq_some_iff.mp hxy
    exact ho ▸ hx other rfl
  have hiff : a.canonical?.isSome ↔ b.canonical?.isSome := by
    rw [canonical?_isSome_iff h ha, canonical?_isSome_iff h.symm hb]
    exact ⟨fun hs step => hmap (hc step) (hs step), fun hs step => hmap (hc step).symm (hs step)⟩
  cases hca : a.canonical? with
  | none =>
      rw [hca, Option.isSome_none, iff_comm, Bool.false_eq_true, iff_false,
        Option.not_isSome_iff_eq_none] at hiff
      exact hiff.symm
  | some c =>
      obtain ⟨d, hcb⟩ := Option.isSome_iff_exists.mp (hiff.mp (by rw [hca]; rfl))
      rw [hcb, Option.some.injEq]
      have hbind : ∀ x : Option Value, x.bind canonical? = (x.map canonical?).bind id := by
        intro x
        rw [Option.bind_map]
        rfl
      refine canonical_eq_of_child? h ha hb hca hcb fun step => ?_
      rw [child?_canonical? ha hca, child?_canonical? hb hcb, hbind, hbind, hc]

/-! ### Related values -/

variable {R : Number → Number → Prop}

/-- Related values have the same representative, or none of them has one, if this holds of related
numbers. -/
lemma canonical?_eq_of_related (hR : ∀ m n, R m n → m.canonical? = n.canonical?)
    (ha : a.HasDistinctKeys) (hb : b.HasDistinctKeys) (h : Related R a b) :
    a.canonical? = b.canonical? := by
  induction a using ind generalizing b with
  | h a ih =>
      cases h.cases with
      | combined hab =>
          exact canonical?_eq_of_child? hab ha hb fun step => map_eq_of_rel (h.child? ha step)
            fun x y hx hy => ih step x hx (ha.child hx) (hb.child hy)
      | numbers hmn => rw [canonical?, canonical?, hR _ _ hmn]
      | same _ => rfl

/-- Values mean the same if they have the same representative. -/
lemma alike_iff : a.alike b ↔ ∃ c, a.canonical? = some c ∧ b.canonical? = some c := by
  unfold alike
  split
  · next x y hx hy =>
      rw [hx, hy, decide_eq_true_eq]
      refine ⟨fun h => ⟨x, rfl, by rw [h]⟩, ?_⟩
      rintro ⟨c, hxc, hyc⟩
      rw [Option.some.inj hxc, Option.some.inj hyc]
  · next hn =>
      simp only [Bool.false_eq_true, false_iff]
      rintro ⟨c, ha, hb⟩
      exact hn c c ha hb

/-! ### Values that mean the same -/

lemma canonical?_eq_null_iff : a.canonical? = some .null ↔ a = .null := by
  cases a <;> simp [canonical?]

lemma canonical?_eq_boolean_iff {x : Bool} :
    a.canonical? = some (.boolean x) ↔ a = .boolean x := by
  cases a <;> simp [canonical?]

lemma canonical?_eq_string_iff {text : String} :
    a.canonical? = some (.string text) ↔ a = .string text := by
  cases a <;> simp [canonical?]

lemma canonical?_eq_number_iff {r : Number} :
    a.canonical? = some (.number r) ↔ ∃ n, a = .number n ∧ n.canonical? = some r := by
  cases a <;> simp [canonical?]

/-- Values with the same representative are related, number by number. -/
lemma related_of_canonical? (ha : a.HasDistinctKeys) (hb : b.HasDistinctKeys)
    (hca : a.canonical? = some c) (hcb : b.canonical? = some c) : Related Number.Alike a b := by
  induction a using ind generalizing b c with
  | h a ih =>
      have hself : Combinable a a → Combinable a b := fun haa =>
        ((combinable_canonical?_iff hcb).mp ((combinable_canonical?_iff hca).mpr haa)).symm
      by_cases hcomb : Combinable a b
      · rw [related_iff_child? hcomb ha]
        intro step
        have hs := child?_canonical? ha hca step
        rw [child?_canonical? hb hcb] at hs
        have hsa := (canonical?_isSome_iff hcomb ha).mp (by rw [hca]; rfl) step
        have hsb := (canonical?_isSome_iff hcomb.symm hb).mp (by rw [hcb]; rfl) step
        cases hx : a.child? step with
        | none =>
            cases hy : b.child? step with
            | none => exact .none
            | some y =>
                rw [hx, hy, Option.bind_none, Option.bind_some] at hs
                exact absurd (hsb y hy) (by simp [hs])
        | some x =>
            obtain ⟨z, hz⟩ := Option.isSome_iff_exists.mp (hsa x hx)
            rw [hx, Option.bind_some, hz] at hs
            obtain ⟨y, hy, hyz⟩ := Option.bind_eq_some_iff.mp hs
            rw [hy]
            exact .some (ih step x hx (ha.child hx) (hb.child hy) hz hyz)
      · cases a with
        | array as => exact absurd (hself (.arrays as as)) hcomb
        | object as => exact absurd (hself (.objects as as)) hcomb
        | null =>
            obtain rfl := Option.some.inj hca
            obtain rfl := canonical?_eq_null_iff.mp hcb
            trivial
        | boolean x =>
            obtain rfl := Option.some.inj hca
            obtain rfl := canonical?_eq_boolean_iff.mp hcb
            exact (rfl : x = x)
        | string x =>
            obtain rfl := Option.some.inj hca
            obtain rfl := canonical?_eq_string_iff.mp hcb
            exact (rfl : x = x)
        | number m =>
            obtain ⟨r, hm, rfl⟩ := Option.map_eq_some_iff.mp hca
            obtain ⟨n, rfl, hn⟩ := canonical?_eq_number_iff.mp hcb
            exact ⟨r, hm, hn⟩

/-- What is related to another value, number by number, has a representative. -/
lemma canonical?_isSome_of_related (ha : a.HasDistinctKeys) (h : Related Number.Alike a b) :
    a.canonical?.isSome := by
  induction a using ind generalizing b with
  | h a ih =>
      cases h.cases with
      | combined hab =>
          rw [canonical?_isSome_iff hab ha]
          intro step inner hc
          obtain ⟨y, -, hy⟩ := exists_of_rel_some (hc ▸ h.child? ha step)
          exact ih step inner hc (ha.child hc) hy
      | numbers hmn =>
          obtain ⟨r, hm, -⟩ := hmn
          rw [canonical?, hm]
          rfl
      | same hs => cases a with
        | null | boolean _ | string _ => rfl
        | number _ | array _ | object _ => exact False.elim hs

/-- **Values that mean the same** are those that are related up to the order of entries, while
numbers in the same places have the same representative. -/
theorem alike_iff_related (ha : a.HasDistinctKeys) (hb : b.HasDistinctKeys) :
    a.alike b ↔ Related Number.Alike a b := by
  rw [alike_iff]
  refine ⟨?_, fun h => ?_⟩
  · rintro ⟨c, hca, hcb⟩
    exact related_of_canonical? ha hb hca hcb
  · obtain ⟨c, hc⟩ := Option.isSome_iff_exists.mp (canonical?_isSome_of_related ha h)
    exact ⟨c, hc, by rw [← canonical?_eq_of_related (fun _ _ h => h.canonical?_eq) ha hb h, hc]⟩

end Value

end Reshape
