import Mathlib.Data.List.Induction
import Mathlib.Data.List.ReduceOption
import Reshape.Proofs.Value.Overlay

/-!
Laying the same values over each other once more.

A row of values is laid over a value. Where two neighbours are not combined, the later one replaces
all that was laid before, and what comes behind it is laid over it alone: a second pass over the row
gets to the same replacement. So it is enough to look at rows of objects and at rows of arrays, and
these are laid over each other child by child.

* `combined_or_replaced`: all values of a row are combined, or there is a last replacement.
* `child?_foldl_overlay`: the children of combined values are laid over each other as a row.
* `IsSettled` and `foldl_overlay_eq_self`: values that make a value child by child change nothing
  in it, if the same holds of its children.
* `foldl_overlay_foldl_overlay` and `overlayAll_append_self`: a second pass changes nothing.
-/

namespace Reshape.Value

variable {lower upper laid inner : Value} {values : List Value}

/-! ### Rows of combined values -/

/-- A row of combined values is combined with the same values as the one it is laid over. -/
lemma combinable_foldl_overlay_iff (h : ∀ value ∈ values, Combinable lower value) :
    Combinable (values.foldl overlay lower) upper ↔ Combinable lower upper := by
  induction values generalizing lower with
  | nil => exact Iff.rfl
  | cons value values ih =>
      obtain ⟨hv, h⟩ := List.forall_mem_cons.mp h
      have hc : ∀ other, Combinable (lower.overlay value) other ↔ Combinable lower other := by
        intro other
        rw [combinable_overlay_iff]
        exact ⟨hv.trans, hv.symm.trans⟩
      rw [List.foldl_cons, ih fun other ho => (hc other).mpr (h other ho), hc]

/-- All values of a row are combined with the one that they are laid over, or there is a last value
that replaces what was laid before it. -/
lemma combined_or_replaced (lower : Value) (values : List Value) :
    (∀ value ∈ values, Combinable lower value)
      ∨ ∃ before value after, values = before ++ value :: after
        ∧ ¬ Combinable (before.foldl overlay lower) value
        ∧ ∀ other ∈ after, Combinable value other := by
  induction values using List.reverseRecOn with
  | nil => exact .inl (by simp)
  | append_singleton values last ih =>
      rcases ih with h | ⟨before, value, after, rfl, hn, h⟩
      · by_cases hc : Combinable lower last
        · refine .inl ?_
          rw [List.forall_mem_append, List.forall_mem_singleton]
          exact ⟨h, hc⟩
        · exact .inr ⟨values, last, [], rfl, (combinable_foldl_overlay_iff h).not.mpr hc, by simp⟩
      · by_cases hc : Combinable value last
        · refine .inr ⟨before, value, after ++ [last], by simp, hn, ?_⟩
          rw [List.forall_mem_append, List.forall_mem_singleton]
          exact ⟨h, hc⟩
        · refine .inr ⟨before ++ value :: after, last, [], rfl, ?_, by simp⟩
          rw [List.foldl_append, List.foldl_cons, overlay_of_not_combinable hn,
            combinable_foldl_overlay_iff h]
          exact hc

/-- The children of combined values are laid over each other as a row, in which some may be
missing. -/
lemma child?_foldl_overlay (h : ∀ value ∈ values, Combinable lower value)
    (hv : ∀ value ∈ values, value.HasDistinctKeys) (step : Place.Step) :
    (values.foldl overlay lower).child? step =
      (values.map (·.child? step)).foldl (Option.merge overlay) (lower.child? step) := by
  induction values generalizing lower with
  | nil => rfl
  | cons value values ih =>
      obtain ⟨hc, h⟩ := List.forall_mem_cons.mp h
      obtain ⟨hd, hv⟩ := List.forall_mem_cons.mp hv
      have hn : ∀ other ∈ values, Combinable (lower.overlay value) other := fun other ho =>
        combinable_overlay_iff.mpr (hc.symm.trans (h other ho))
      rw [List.foldl_cons, ih hn hv, child?_overlay hc hd, List.map_cons, List.foldl_cons]

/-! ### Children that may be missing -/

/-- A row of children over one that is there: those that are missing are skipped. -/
lemma foldl_merge_some (below : Value) (children : List (Option Value)) :
    children.foldl (Option.merge overlay) (some below) =
      some (children.reduceOption.foldl overlay below) := by
  induction children generalizing below with
  | nil => rfl
  | cons child children ih =>
      cases child with
      | none => exact ih below
      | some above => exact ih (below.overlay above)

/-- What a row of children makes is made of those that are there, laid over some value. -/
lemma exists_foldl_of_foldl_merge {child : Option Value} {children : List (Option Value)}
    (h : children.foldl (Option.merge overlay) child = some inner) :
    ∃ below, (child = some below ∨ below = .null)
      ∧ children.reduceOption.foldl overlay below = inner := by
  cases child with
  | some below =>
      rw [foldl_merge_some, Option.some.injEq] at h
      exact ⟨below, .inl rfl, h⟩
  | none =>
      refine ⟨.null, .inr rfl, ?_⟩
      induction children with
      | nil => exact absurd h (by simp)
      | cons child children ih =>
          cases child with
          | none => exact ih h
          | some above =>
              rw [List.foldl_cons, Option.merge_none_left, foldl_merge_some,
                Option.some.injEq] at h
              rw [List.reduceOption_cons_of_some, List.foldl_cons, overlay_null]
              exact h

/-- A row of children makes nothing exactly if none of them is there. -/
lemma foldl_merge_eq_none_iff {child : Option Value} {children : List (Option Value)} :
    children.foldl (Option.merge overlay) child = none ↔
      child = none ∧ ∀ other ∈ children, other = none := by
  induction children generalizing child with
  | nil => simp
  | cons first children ih =>
      rw [List.foldl_cons, ih, Option.merge_eq_none_iff, List.forall_mem_cons, and_assoc]

/-! ### A second pass -/

lemma mem_keys_entries_iff {value : Value} {key : String} :
    key ∈ Entries.keys value.entries ↔ (value.child? (.key key)).isSome := by
  cases value with
  | object entries => exact Entries.lookup_isSome_iff.symm
  | _ => simp [entries, child?]

/-- Objects whose keys are all there already keep the keys in their order. -/
lemma keys_foldl_overlay (h : ∀ value ∈ values, Combinable lower value)
    (hv : ∀ value ∈ values, value.HasDistinctKeys)
    (hk : ∀ value ∈ values, ∀ key ∈ Entries.keys value.entries, key ∈ Entries.keys lower.entries) :
    Entries.keys (values.foldl overlay lower).entries = Entries.keys lower.entries := by
  induction values generalizing lower with
  | nil => rfl
  | cons value values ih =>
      obtain ⟨hc, h⟩ := List.forall_mem_cons.mp h
      obtain ⟨hd, hv⟩ := List.forall_mem_cons.mp hv
      obtain ⟨hkv, hk⟩ := List.forall_mem_cons.mp hk
      have hsame : Entries.keys (lower.overlay value).entries = Entries.keys lower.entries := by
        cases hc with
        | arrays as bs => rfl
        | objects as bs =>
            have hdb : (Entries.keys bs).Nodup := hd.nodup
            have hf : (Entries.keys bs).filter (· ∉ Entries.keys as) = [] := by
              rw [List.filter_eq_nil_iff]
              intro key hm
              simpa [entries] using hkv key hm
            show Entries.keys (overlayEntries as bs) = Entries.keys as
            rw [keys_overlayEntries hdb, hf, List.append_nil]
      have hn : ∀ other ∈ values, Combinable (lower.overlay value) other := fun other ho =>
        combinable_overlay_iff.mpr (hc.symm.trans (h other ho))
      rw [List.foldl_cons, ih hn hv (hsame ▸ hk), hsame]

/-- A second pass over any row that makes the value changes nothing. -/
def IsSettled (laid : Value) : Prop :=
  ∀ (lower : Value) (values : List Value), lower.HasDistinctKeys →
    (∀ value ∈ values, value.HasDistinctKeys) → values.foldl overlay lower = laid →
    values.foldl overlay laid = laid

/-- The children that a value is made of change nothing in it. -/
lemma foldl_children_eq_self {below : Option Value} (h : inner.IsSettled) {step : Place.Step}
    (hv : ∀ value ∈ values, value.HasDistinctKeys)
    (hb : ∀ value, below = some value → value.HasDistinctKeys)
    (hm : (values.map (·.child? step)).foldl (Option.merge overlay) below = some inner) :
    (values.map (·.child? step)).reduceOption.foldl overlay inner = inner := by
  obtain ⟨start, hs, hm⟩ := exists_foldl_of_foldl_merge hm
  refine h start _ ?_ ?_ hm
  · rcases hs with hs | rfl
    · exact hb start hs
    · trivial
  · intro child hc
    rw [List.reduceOption_mem_iff, List.mem_map] at hc
    obtain ⟨value, hmem, hc⟩ := hc
    exact (hv value hmem).child hc

/-- Combined values change nothing in what they have already made child by child, if the same holds
of the children. -/
lemma foldl_overlay_eq_self {below : Place.Step → Option Value}
    (h : ∀ value ∈ values, Combinable laid value) (hd : laid.HasDistinctKeys)
    (hv : ∀ value ∈ values, value.HasDistinctKeys)
    (hb : ∀ step value, below step = some value → value.HasDistinctKeys)
    (hm : ∀ step, laid.child? step =
      (values.map (·.child? step)).foldl (Option.merge overlay) (below step))
    (hi : ∀ step inner, laid.child? step = some inner → inner.IsSettled) :
    values.foldl overlay laid = laid := by
  rcases List.eq_nil_or_concat' values with rfl | ⟨others, last, hl⟩
  · rfl
  have hc : Combinable (values.foldl overlay laid) laid := by
    have hself : Combinable laid last := h last (by simp [hl])
    rw [combinable_foldl_overlay_iff h]
    exact hself.trans hself.symm
  have hmissing : ∀ step, laid.child? step = none → ∀ value ∈ values, value.child? step = none := by
    intro step hn value hmem
    rw [hm, foldl_merge_eq_none_iff] at hn
    exact hn.2 _ (List.mem_map_of_mem hmem)
  have hk : ∀ value ∈ values, ∀ key ∈ Entries.keys value.entries,
      key ∈ Entries.keys laid.entries := by
    intro value hmem key hkey
    rw [mem_keys_entries_iff, Option.isSome_iff_ne_none] at hkey ⊢
    exact fun hn => hkey (hmissing _ hn value hmem)
  refine hc.eq_of_child? (keys_foldl_overlay h hv hk) (hasDistinctKeys_foldl_overlay hd hv) ?_
  intro step
  rw [child?_foldl_overlay h hv]
  cases hs : laid.child? step with
  | some inner =>
      rw [foldl_merge_some, foldl_children_eq_self (hi step inner hs) hv (hb step) (hm step ▸ hs)]
  | none =>
      rw [foldl_merge_eq_none_iff, List.forall_mem_map]
      exact ⟨rfl, hmissing step hs⟩

/-- A row whose first value was laid over nothing changes nothing in what it has made, if its values
are combined and the same holds of the children. -/
lemma foldl_overlay_cons_eq_self {value : Value} {after : List Value}
    (h : ∀ other ∈ after, Combinable value other) (hm : after.foldl overlay value = laid)
    (hd : laid.HasDistinctKeys) (hv : ∀ other ∈ value :: after, other.HasDistinctKeys)
    (hi : ∀ step inner, laid.child? step = some inner → inner.IsSettled) :
    (value :: after).foldl overlay laid = laid := by
  by_cases hself : Combinable value value
  · have hlv : Combinable laid value := hm ▸ (combinable_foldl_overlay_iff h).mpr hself
    have hlaid : ∀ other ∈ value :: after, Combinable laid other :=
      List.forall_mem_cons.mpr ⟨hlv, fun other ho => hlv.trans (h other ho)⟩
    have hbelow : ∀ step, laid.child? step =
        ((value :: after).map (·.child? step)).foldl (Option.merge overlay) none := by
      intro step
      rw [← hm, child?_foldl_overlay h (List.forall_mem_cons.mp hv).2, List.map_cons,
        List.foldl_cons, Option.merge_none_left]
    exact foldl_overlay_eq_self hlaid hd hv (by simp) hbelow hi
  · -- what is neither an object nor an array stands alone in its row
    have hnil : after = [] := by
      by_contra hne
      obtain ⟨other, ho⟩ := List.exists_mem_of_ne_nil after hne
      exact hself ((h other ho).trans (h other ho).symm)
    subst hnil
    obtain rfl : value = laid := hm
    exact overlay_of_not_combinable hself

/-- Every value is settled, by induction on what the row makes: its children are made by rows of
children. -/
lemma isSettled (laid : Value) : laid.IsSettled := by
  induction laid using ind with
  | h laid ih =>
      intro lower values hl hv hm
      have hd : laid.HasDistinctKeys := hm ▸ hasDistinctKeys_foldl_overlay hl hv
      rcases combined_or_replaced lower values with hc | ⟨before, value, after, rfl, hn, hc⟩
      · have hlaid : ∀ value ∈ values, Combinable laid value := fun value hmem =>
          hm ▸ (combinable_foldl_overlay_iff hc).mpr (hc value hmem)
        exact foldl_overlay_eq_self hlaid hd hv (fun step below hb => hl.child hb)
          (fun step => hm ▸ child?_foldl_overlay hc hv step) ih
      · rw [List.foldl_append, List.foldl_cons, overlay_of_not_combinable hn] at hm
        rcases List.eq_nil_or_concat' before with rfl | ⟨others, last, rfl⟩
        · exact foldl_overlay_cons_eq_self hc hm hd hv ih
        · -- the same value replaces all again, whatever is laid before it
          have hn' : ¬ Combinable ((others ++ [last]).foldl overlay laid) value := by
            rw [List.foldl_append, List.foldl_cons, List.foldl_nil, combinable_overlay_iff] at hn ⊢
            exact hn
          rw [List.foldl_append, List.foldl_cons, overlay_of_not_combinable hn', hm]

/-- **A second pass changes nothing**: a row of values may be laid once more over what it has
made. -/
theorem foldl_overlay_foldl_overlay (hl : lower.HasDistinctKeys)
    (hv : ∀ value ∈ values, value.HasDistinctKeys) :
    values.foldl overlay (values.foldl overlay lower) = values.foldl overlay lower :=
  isSettled _ lower values hl hv rfl

/-- Values laid over each other twice give what they give once. -/
lemma overlayAll_append_self (hv : ∀ value ∈ values, value.HasDistinctKeys) :
    overlayAll (values ++ values) = overlayAll values := by
  rw [overlayAll, List.foldl_append, foldl_overlay_foldl_overlay hasDistinctKeys_empty hv,
    overlayAll]

end Reshape.Value
