import Mathlib.Data.List.Basic
import Reshape.Proofs.Value.Distinct
import Reshape.Value.Overlay

/-!
Laying values over each other, child by child.

* `Combinable`: two objects or two arrays. Of other values, the upper one stays.
* `child?_overlay`: the children of combined values are laid over each other.
* `HasDistinctKeys.overlay`: overlaying repeats no key.
* `foldl_overlay_of_closed`: what overlaying keeps is kept by a row of values.
* `Compatible` and `overlay_assoc`: when three values may be laid over each other in either order.
-/

namespace Reshape.Value

/-! ### Values that are combined -/

/-- Both values are objects, or both are arrays, so that they are combined child by child. -/
inductive Combinable : Value → Value → Prop
  | objects (as bs : List (String × Value)) : Combinable (.object as) (.object bs)
  | arrays (as bs : List Value) : Combinable (.array as) (.array bs)

variable {a b c : Value}

lemma Combinable.symm (h : Combinable a b) : Combinable b a := by
  cases h <;> constructor

lemma Combinable.trans (h : Combinable a b) (h' : Combinable b c) : Combinable a c := by
  cases h <;> cases h' <;> constructor

/-- The upper value stays where the values are not combined. -/
lemma overlay_of_not_combinable (h : ¬ Combinable a b) : overlay a b = b := by
  unfold overlay
  split
  · exact absurd (.objects _ _) h
  · exact absurd (.arrays _ _) h
  · rfl

/-- A combined value is combined with the same values as the upper one. -/
lemma combinable_overlay_iff : Combinable (overlay a b) c ↔ Combinable b c := by
  by_cases h : Combinable a b
  · have hb : Combinable (overlay a b) b := by
      cases h <;> (rw [overlay]; constructor)
    exact ⟨hb.symm.trans, hb.trans⟩
  · rw [overlay_of_not_combinable h]

/-- The children of combined values are laid over each other. -/
lemma child?_overlay (h : Combinable a b) (hb : b.HasDistinctKeys) (step : Place.Step) :
    (overlay a b).child? step = Option.merge overlay (a.child? step) (b.child? step) := by
  cases h with
  | objects as bs =>
      cases step with
      | key name => exact lookup_overlayEntries hb.nodup name
      | index i => rfl
  | arrays as bs =>
      cases step with
      | key name => rfl
      | index i => exact getElem?_overlayItems as bs i

/-! ### Keys -/

/-- The new keys come after those that are there, in their order. -/
lemma keys_overlayEntries {lower upper : List (String × Value)} (h : (Entries.keys upper).Nodup) :
    Entries.keys (overlayEntries lower upper) =
      Entries.keys lower ++ (Entries.keys upper).filter (· ∉ Entries.keys lower) := by
  induction upper generalizing lower with
  | nil => simp [overlayEntries]
  | cons entry rest ih =>
      obtain ⟨key, value⟩ := entry
      rw [Entries.keys_cons, List.nodup_cons] at h
      rw [overlayEntries, ih h.2, Entries.keys_put, Entries.keys_cons]
      by_cases hk : key ∈ Entries.keys lower
      · simp [hk]
      · have hf : (Entries.keys rest).filter (· ∉ Entries.keys lower ++ [key]) =
            (Entries.keys rest).filter (· ∉ Entries.keys lower) := by
          refine List.filter_congr fun other ho => ?_
          have hne : other ≠ key := fun he => h.1 (he ▸ ho)
          simp [hne]
        rw [if_neg hk, hf, List.filter_cons_of_pos (by simpa using hk), List.append_assoc]
        rfl

lemma nodup_keys_overlayEntries {lower : List (String × Value)} (h : (Entries.keys lower).Nodup)
    (upper : List (String × Value)) : (Entries.keys (overlayEntries lower upper)).Nodup := by
  induction upper generalizing lower with
  | nil => rwa [overlayEntries]
  | cons entry rest ih =>
      obtain ⟨key, value⟩ := entry
      rw [overlayEntries]
      exact ih (Entries.nodup_keys_put h key _)

/-- Overlaying repeats no key. -/
lemma HasDistinctKeys.overlay (ha : a.HasDistinctKeys) (hb : b.HasDistinctKeys) :
    (overlay a b).HasDistinctKeys := by
  induction b using ind generalizing a with
  | h b ih =>
      by_cases hc : Combinable a b
      · rw [hasDistinctKeys_iff]
        refine ⟨?_, ?_⟩
        · cases hc with
          | objects as bs => exact nodup_keys_overlayEntries ha.nodup bs
          | arrays as bs => exact List.nodup_nil
        · intro step inner hi
          rw [child?_overlay hc hb] at hi
          rcases Option.merge_eq_some_iff.mp hi with ⟨ha', -⟩ | ⟨-, hb'⟩ | ⟨x, y, hx, hy, rfl⟩
          · exact ha.child ha'
          · exact hb.child hb'
          · exact ih step y hy (ha.child hx) (hb.child hy)
      · rwa [overlay_of_not_combinable hc]

/-! ### Rows of values -/

/-- What is kept by laying one value over another is kept by laying a row of values. -/
lemma foldl_overlay_of_closed {P : Value → Prop}
    (hP : ∀ {lower upper : Value}, P lower → P upper → P (lower.overlay upper))
    {lower : Value} {values : List Value} (hl : P lower) (hv : ∀ value ∈ values, P value) :
    P (values.foldl overlay lower) := by
  induction values generalizing lower with
  | nil => exact hl
  | cons value rest ih =>
      obtain ⟨hf, hv⟩ := List.forall_mem_cons.mp hv
      exact ih (hP hl hf) hv

lemma hasDistinctKeys_foldl_overlay {lower : Value} {values : List Value}
    (hl : lower.HasDistinctKeys) (hv : ∀ value ∈ values, value.HasDistinctKeys) :
    (values.foldl overlay lower).HasDistinctKeys :=
  foldl_overlay_of_closed HasDistinctKeys.overlay hl hv

/-! ### The empty object and null below -/

lemma overlay_null (value : Value) : overlay .null value = value :=
  overlay_of_not_combinable (by rintro ⟨⟩)

/-- Whatever is laid over the empty object stays as it is. -/
lemma overlay_empty (h : a.HasDistinctKeys) : overlay empty a = a := by
  cases a with
  | object entries =>
      have hd : (Entries.keys entries).Nodup := h.nodup
      have hk : Entries.keys (overlayEntries [] entries) = Entries.keys entries := by
        simp [keys_overlayEntries hd]
      rw [empty, overlay]
      refine congrArg object (Entries.eq_of_lookup hk (hk ▸ hd) fun key => ?_)
      rw [lookup_overlayEntries hd, List.lookup_nil, Option.merge_none_left]
  | _ => rfl

/-! ### Three values -/

/-- The values may be laid over each other from either end: the first and the third are not combined
with each other, or all three are, and then this holds of all children that all three have. -/
inductive Compatible : Value → Value → Value → Prop
  | apart {a b c : Value} (h : ¬ Combinable a c) : Compatible a b c
  | inside {a b c : Value} (hab : Combinable a b) (hbc : Combinable b c)
      (h : ∀ step x y z, a.child? step = some x → b.child? step = some y →
        c.child? step = some z → Compatible x y z) : Compatible a b c

/-- Values are known from their kind, their keys in order, and their children. -/
lemma Combinable.eq_of_child? (h : Combinable a b)
    (hk : Entries.keys a.entries = Entries.keys b.entries) (hd : a.HasDistinctKeys)
    (hc : ∀ step, a.child? step = b.child? step) : a = b := by
  cases h with
  | objects as bs =>
      exact congrArg object (Entries.eq_of_lookup hk hd.nodup fun key => hc (.key key))
  | arrays as bs => exact congrArg array (List.ext_getElem? fun i => hc (.index i))

/-- The children at one step may be laid over each other from either end if they may where all three
are there. -/
lemma option_merge_assoc {f : Value → Value → Value} {x y z : Option Value}
    (h : ∀ a b c, x = some a → y = some b → z = some c → f (f a b) c = f a (f b c)) :
    Option.merge f (Option.merge f x y) z = Option.merge f x (Option.merge f y z) := by
  cases x <;> cases y <;> cases z <;> first | rfl | exact congrArg some (h _ _ _ rfl rfl rfl)

/-- Overlaying keeps the order of keys, from whichever end it begins. -/
lemma keys_overlay_assoc (hab : Combinable a b) (hbc : Combinable b c) (hb : b.HasDistinctKeys)
    (hc : c.HasDistinctKeys) :
    Entries.keys (overlay (overlay a b) c).entries =
      Entries.keys (overlay a (overlay b c)).entries := by
  cases hab with
  | arrays as bs =>
      cases hbc with
      | arrays _ cs => rfl
  | objects as bs =>
      cases hbc with
      | objects _ cs =>
          have hdb : (Entries.keys bs).Nodup := hb.nodup
          have hdc : (Entries.keys cs).Nodup := hc.nodup
          simp only [overlay, entries]
          rw [keys_overlayEntries hdc, keys_overlayEntries hdb,
            keys_overlayEntries (nodup_keys_overlayEntries hdb cs), keys_overlayEntries hdc,
            List.filter_append, List.filter_filter, List.append_assoc]
          congr 2
          refine List.filter_congr fun key _ => ?_
          by_cases ha : key ∈ Entries.keys as <;> simp [ha]

/-- **Overlaying compatible values**: it does not matter from which end one begins. -/
theorem overlay_assoc (h : Compatible a b c) (ha : a.HasDistinctKeys) (hb : b.HasDistinctKeys)
    (hc : c.HasDistinctKeys) : overlay (overlay a b) c = overlay a (overlay b c) := by
  induction h with
  | @apart a b c h =>
      by_cases hbc : Combinable b c
      · have hab : ¬ Combinable a b := fun hab => h (hab.trans hbc)
        have hr : ¬ Combinable a (overlay b c) := fun hr =>
          h (combinable_overlay_iff.mp hr.symm).symm
        rw [overlay_of_not_combinable hab, overlay_of_not_combinable hr]
      · rw [overlay_of_not_combinable hbc, overlay_of_not_combinable h,
          overlay_of_not_combinable fun hl => hbc (combinable_overlay_iff.mp hl)]
  | @inside a b c hab hbc _ ih =>
      have hbc' : Combinable (overlay b c) c := combinable_overlay_iff.mpr (hbc.symm.trans hbc)
      have hl : Combinable (overlay a b) c := combinable_overlay_iff.mpr hbc
      have hr : Combinable a (overlay b c) := (hab.trans hbc).trans hbc'.symm
      have hlr : Combinable (overlay (overlay a b) c) (overlay a (overlay b c)) :=
        combinable_overlay_iff.mpr (combinable_overlay_iff.mpr hbc').symm
      refine hlr.eq_of_child? (keys_overlay_assoc hab hbc hb hc) ((ha.overlay hb).overlay hc) ?_
      intro step
      rw [child?_overlay hl hc, child?_overlay hab hb, child?_overlay hr (hb.overlay hc),
        child?_overlay hbc hc]
      exact option_merge_assoc fun x y z hx hy hz =>
        ih step x y z hx hy hz (ha.child hx) (hb.child hy) (hc.child hz)

end Reshape.Value
