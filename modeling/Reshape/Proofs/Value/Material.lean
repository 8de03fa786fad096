import Reshape.Proofs.Value.Overlay

/-!
What values are made of.

* `Within`: one value occurs in another one, at whatever depth.
* `IsScalar`: a truth value, a number or a text. `HasKey`: a key occurs in a value.
* `MadeOf`: all scalars and all keys that occur in a value are among given ones.
* `MadeOf.overlay`: laying values over each other adds neither scalars nor keys.
-/

namespace Reshape.Value

/-- A value occurs in another one: it is that value, or occurs in an item or under a key of it. -/
inductive Within (inner : Value) : Value → Prop where
  | self : Within inner inner
  | item {items : List Value} {item : Value} :
      item ∈ items → Within inner item → Within inner (.array items)
  | entry {entries : List (String × Value)} {entry : String × Value} :
      entry ∈ entries → Within inner entry.2 → Within inner (.object entries)

/-- The value is a truth value, a number or a text. -/
def IsScalar : Value → Prop
  | .boolean _ | .number _ | .string _ => True
  | _ => False

/-- A key occurs in a value: it is a key of an object that occurs in the value. -/
def HasKey (key : String) (value : Value) : Prop :=
  ∃ entries, Within (.object entries) value ∧ key ∈ Entries.keys entries

/-- All scalars that occur in the value satisfy `S`, and all keys satisfy `K`. -/
structure MadeOf (S : Value → Prop) (K : String → Prop) (value : Value) : Prop where
  /-- The scalars. -/
  scalar {inner : Value} : inner.IsScalar → Within inner value → S inner
  /-- The keys. -/
  key {key : String} : HasKey key value → K key

variable {S : Value → Prop} {K : String → Prop} {value lower upper : Value}

/-! ### Level by level -/

/-- What stands at a place of a value occurs in it. -/
lemma within_of_at? {inner : Value} {place : Place} (h : value.at? place = some inner) :
    Within inner value := by
  induction place generalizing value with
  | nil =>
      obtain rfl := Option.some.inj h
      exact .self
  | cons step rest ih =>
      obtain ⟨child, hc, hr⟩ := Option.bind_eq_some_iff.mp h
      cases value with
      | array items =>
          cases step with
          | key name => exact absurd hc (by simp [child?])
          | index i => exact .item (List.mem_of_getElem? hc) (ih hr)
      | object entries =>
          cases step with
          | key name => exact .entry (Entries.mem_of_lookup hc) (ih hr)
          | index i => exact absurd hc (by simp [child?])
      | _ => exact absurd hc (by simp [child?])

lemma madeOf_null : MadeOf S K .null where
  scalar hs hw := by
    cases hw
    exact False.elim hs
  key := by
    rintro key ⟨entries, hw, -⟩
    cases hw

/-- A scalar is made of itself. -/
lemma madeOf_of_isScalar (hv : value.IsScalar) (h : S value) : MadeOf S K value := by
  have hw : ∀ {inner}, Within inner value → inner = value := by
    rintro inner ⟨⟩
    · rfl
    · exact False.elim hv
    · exact False.elim hv
  refine ⟨fun _ hi => hw hi ▸ h, ?_⟩
  rintro key ⟨entries, hi, -⟩
  rw [← hw hi] at hv
  exact False.elim hv

lemma madeOf_array {items : List Value} :
    MadeOf S K (.array items) ↔ ∀ item ∈ items, MadeOf S K item := by
  refine ⟨fun h item hm => ⟨fun hs hw => h.scalar hs (.item hm hw), ?_⟩, fun h => ⟨?_, ?_⟩⟩
  · rintro key ⟨entries, hw, hk⟩
    exact h.key ⟨entries, .item hm hw, hk⟩
  · intro inner hs hw
    cases hw with
    | self => exact False.elim hs
    | item hm hw => exact (h _ hm).scalar hs hw
  · rintro key ⟨entries, hw, hk⟩
    cases hw with
    | item hm hw => exact (h _ hm).key ⟨entries, hw, hk⟩

lemma madeOf_object {entries : List (String × Value)} :
    MadeOf S K (.object entries) ↔ ∀ entry ∈ entries, K entry.1 ∧ MadeOf S K entry.2 := by
  refine ⟨fun h entry hm => ⟨?_, fun hs hw => h.scalar hs (.entry hm hw), ?_⟩,
    fun h => ⟨?_, ?_⟩⟩
  · exact h.key ⟨entries, .self, List.mem_map_of_mem hm⟩
  · rintro key ⟨inner, hw, hk⟩
    exact h.key ⟨inner, .entry hm hw, hk⟩
  · intro inner hs hw
    cases hw with
    | self => exact False.elim hs
    | entry hm hw => exact (h _ hm).2.scalar hs hw
  · rintro key ⟨inner, hw, hk⟩
    cases hw with
    | self =>
        obtain ⟨entry, hm, rfl⟩ := List.mem_map.mp hk
        exact (h entry hm).1
    | entry hm hw => exact (h _ hm).2.key ⟨inner, hw, hk⟩

lemma MadeOf.items (h : MadeOf S K value) : ∀ item ∈ value.items, MadeOf S K item := by
  cases value with
  | array items => exact madeOf_array.mp h
  | _ => simp [Value.items]

lemma MadeOf.property (h : MadeOf S K value) (name : String) :
    MadeOf S K (value.property name) := by
  rw [property_eq_child?]
  cases hc : value.child? (.key name) with
  | none => exact madeOf_null
  | some inner =>
      cases value with
      | object entries => exact (madeOf_object.mp h (name, inner) (mem_entries_of_child? hc)).2
      | _ => exact absurd hc (by simp [child?])

lemma madeOf_empty : MadeOf S K empty :=
  madeOf_object.mpr (by simp)

lemma MadeOf.under {key : String} (h : MadeOf S K value) (hk : K key) :
    MadeOf S K (under key value) :=
  madeOf_object.mpr (List.forall_mem_singleton.mpr ⟨hk, h⟩)

/-! ### Overlaying -/

/-- What all items have is kept if laying an item over another one keeps it. -/
lemma forall_mem_overlayItems {P : Value → Prop} {lower upper : List Value}
    (hl : ∀ item ∈ lower, P item) (hu : ∀ item ∈ upper, P item)
    (h : ∀ item ∈ upper, ∀ below, P below → P (below.overlay item)) :
    ∀ item ∈ overlayItems lower upper, P item := by
  induction lower generalizing upper with
  | nil =>
      rw [overlayItems]
      exact hu
  | cons below lower ih =>
      cases upper with
      | nil =>
          rw [overlayItems]
          · exact hl
          · exact List.cons_ne_nil below lower
      | cons above upper =>
          rw [overlayItems]
          obtain ⟨hb, hl⟩ := List.forall_mem_cons.mp hl
          obtain ⟨-, hu⟩ := List.forall_mem_cons.mp hu
          obtain ⟨hf, h⟩ := List.forall_mem_cons.mp h
          exact List.forall_mem_cons.mpr ⟨hf below hb, ih hl hu h⟩

/-- What all entries have is kept if laying an entry over one with the same key keeps it. -/
lemma forall_mem_overlayEntries {P : String × Value → Prop} {lower upper : List (String × Value)}
    (hl : ∀ entry ∈ lower, P entry) (hu : ∀ entry ∈ upper, P entry)
    (h : ∀ entry ∈ upper, ∀ below, P (entry.1, below) → P (entry.1, below.overlay entry.2)) :
    ∀ entry ∈ overlayEntries lower upper, P entry := by
  induction upper generalizing lower with
  | nil =>
      rw [overlayEntries]
      exact hl
  | cons entry rest ih =>
      obtain ⟨key, above⟩ := entry
      obtain ⟨ha, hu⟩ := List.forall_mem_cons.mp hu
      obtain ⟨hf, h⟩ := List.forall_mem_cons.mp h
      have hput : ∀ combined, P (key, combined) →
          ∀ entry ∈ Entries.put key combined lower, P entry := by
        intro combined hc entry hm
        rcases Entries.mem_put hm with rfl | hm
        · exact hc
        · exact hl entry hm
      rw [overlayEntries]
      refine ih (hput _ ?_) hu h
      cases hb : lower.lookup key with
      | none => exact ha
      | some below => exact hf below (hl _ (Entries.mem_of_lookup hb))

/-- Laying values over each other adds neither scalars nor keys. -/
lemma MadeOf.overlay (hl : MadeOf S K lower) (hu : MadeOf S K upper) :
    MadeOf S K (lower.overlay upper) := by
  induction upper using memInd generalizing lower with
  | h upper hi he =>
      by_cases hc : Combinable lower upper
      · cases hc with
        | objects as bs =>
            have hb := madeOf_object.mp hu
            rw [Value.overlay, madeOf_object]
            refine forall_mem_overlayEntries (madeOf_object.mp hl) hb fun entry hm below h => ?_
            exact ⟨h.1, he entry hm h.2 (hb entry hm).2⟩
        | arrays as bs =>
            have hb := madeOf_array.mp hu
            rw [Value.overlay, madeOf_array]
            exact forall_mem_overlayItems (madeOf_array.mp hl) hb fun item hm below h =>
              hi item hm h (hb item hm)
      · rwa [overlay_of_not_combinable hc]

end Reshape.Value
