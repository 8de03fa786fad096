import Reshape.Proofs.Value.Canonical
import Reshape.Proofs.Value.Corresponds

/-!
Laying values over each other when the entries of an object may come in any order.

* `Lays`: what may come out when one value is laid over another and the entries of every object of
  the upper value are visited in some order. `lays_overlay`: one such order is that of the list.
* `Lays.reordered`: whichever order is taken, the result is the same up to the order of entries.
* `LaysAll`: the same for a row of values.
-/

namespace Reshape.Value

mutual

/-- Laying `upper` over `lower` may give `laid`, where the entries of each object of `upper` are
visited in some order. -/
inductive Lays : (lower upper laid : Value) → Prop where
  | object {lower upper visited laid : List (String × Value)} :
      visited.Perm upper → LaysEntries lower visited laid →
      Lays (.object lower) (.object upper) (.object laid)
  | array {lower upper laid : List Value} :
      LaysItems lower upper laid → Lays (.array lower) (.array upper) (.array laid)
  | apart {lower upper : Value} : ¬ Combinable lower upper → Lays lower upper upper

/-- Items are laid over the items in the same places, and further items stay. -/
inductive LaysItems : (lower upper laid : List Value) → Prop where
  | both {below above item : Value} {lower upper laid : List Value} :
      Lays below above item → LaysItems lower upper laid →
      LaysItems (below :: lower) (above :: upper) (item :: laid)
  | upper {items : List Value} : LaysItems [] items items
  | lower {items : List Value} : LaysItems items [] items

/-- Entries are put into an object one after the other, each over the one with the same key. -/
inductive LaysEntries : (lower visited laid : List (String × Value)) → Prop where
  | nil {lower : List (String × Value)} : LaysEntries lower [] lower
  | fresh {key : String} {above : Value} {lower visited laid : List (String × Value)} :
      lower.lookup key = none → LaysEntries (Entries.put key above lower) visited laid →
      LaysEntries lower ((key, above) :: visited) laid
  | present {key : String} {below above combined : Value}
      {lower visited laid : List (String × Value)} :
      lower.lookup key = some below → Lays below above combined →
      LaysEntries (Entries.put key combined lower) visited laid →
      LaysEntries lower ((key, above) :: visited) laid

end

/-- Laying a row of values over `lower`, in order, may give `laid`. -/
inductive LaysAll : (lower : Value) → (values : List Value) → (laid : Value) → Prop where
  | nil {lower : Value} : LaysAll lower [] lower
  | cons {lower value next laid : Value} {values : List Value} :
      Lays lower value next → LaysAll next values laid → LaysAll lower (value :: values) laid

variable {a b c lower upper laid : Value}

/-! ### The order of the list is one of the orders -/

/-- Laying entries over entries in the order of the list is one way of visiting them. -/
lemma laysEntries_overlayEntries {entries visited : List (String × Value)}
    (h : ∀ entry ∈ visited, ∀ below, Lays below entry.2 (below.overlay entry.2)) :
    LaysEntries entries visited (overlayEntries entries visited) := by
  induction visited generalizing entries with
  | nil =>
      rw [overlayEntries]
      exact .nil
  | cons entry rest ih =>
      obtain ⟨key, above⟩ := entry
      obtain ⟨hf, h⟩ := List.forall_mem_cons.mp h
      rw [overlayEntries]
      cases hl : entries.lookup key with
      | none => exact .fresh hl (ih h)
      | some below => exact .present hl (hf below) (ih h)

lemma laysItems_overlayItems {items visited : List Value}
    (h : ∀ item ∈ visited, ∀ below, Lays below item (below.overlay item)) :
    LaysItems items visited (overlayItems items visited) := by
  induction visited generalizing items with
  | nil =>
      cases items with
      | nil => exact .upper
      | cons below items => exact .lower
  | cons above rest ih =>
      obtain ⟨hf, h⟩ := List.forall_mem_cons.mp h
      cases items with
      | nil => exact .upper
      | cons below items => exact .both (hf below) (ih h)

/-- Laying values over each other in the order of the lists is one way of doing so. -/
lemma lays_overlay (lower upper : Value) : Lays lower upper (lower.overlay upper) := by
  induction upper using memInd generalizing lower with
  | h upper hi he =>
      by_cases hc : Combinable lower upper
      · cases hc with
        | objects as bs =>
            rw [overlay]
            refine .object (.refl _) (laysEntries_overlayEntries ?_)
            exact fun entry hm below => he entry hm below
        | arrays as bs =>
            rw [overlay]
            exact .array (laysItems_overlayItems fun item hm below => hi item hm below)
      · rw [overlay_of_not_combinable hc]
        exact .apart hc

lemma laysAll_foldl (lower : Value) (values : List Value) :
    LaysAll lower values (values.foldl overlay lower) := by
  induction values generalizing lower with
  | nil => exact .nil
  | cons value values ih => exact .cons (lays_overlay lower value) (ih _)

/-! ### All orders agree -/

lemma hasDistinctKeys_put {entries : List (String × Value)} {value : Value} {key : String}
    (h : (object entries).HasDistinctKeys) (hv : value.HasDistinctKeys) :
    (object (Entries.put key value entries)).HasDistinctKeys := by
  rw [hasDistinctKeys_iff]
  refine ⟨Entries.nodup_keys_put h.nodup key value, ?_⟩
  intro step inner hc
  cases step with
  | index i => exact absurd hc (by simp [child?])
  | key name =>
      rw [child?, Entries.lookup_put] at hc
      split at hc
      · exact Option.some.inj hc ▸ hv
      · have hn : (object entries).child? (.key name) = some inner := hc
        exact h.child hn

lemma hasDistinctKeys_object_cons {key : String} {value : Value} {rest : List (String × Value)} :
    (object ((key, value) :: rest)).HasDistinctKeys ↔
      key ∉ Entries.keys rest ∧ value.HasDistinctKeys ∧ (object rest).HasDistinctKeys := by
  rw [hasDistinctKeys_object, hasDistinctKeys_object, Entries.keys_cons, List.nodup_cons,
    List.forall_mem_cons]
  tauto

/-- One visited entry replaces what is under its key, and all else waits for the rest. -/
lemma rel_lookup_cons {key : String} {above combined : Value}
    {entries rest laid : List (String × Value)} (hk : key ∉ Entries.keys rest)
    (hc : ∃ x, Option.merge overlay (entries.lookup key) (some above) = some x
      ∧ Reordered combined x)
    (h : ∀ name, Option.Rel Reordered (laid.lookup name)
      (Option.merge overlay ((Entries.put key combined entries).lookup name) (rest.lookup name)))
    (name : String) : Option.Rel Reordered (laid.lookup name)
      (Option.merge overlay (entries.lookup name) (((key, above) :: rest).lookup name)) := by
  have hn := h name
  rw [Entries.lookup_put] at hn
  rw [Entries.lookup_cons]
  by_cases hname : name = key
  · subst hname
    obtain ⟨x, hx, hcx⟩ := hc
    rw [if_pos rfl, Entries.lookup_eq_none_iff.mpr hk, Option.merge_none_right] at hn
    rw [if_pos rfl, hx]
    exact rel_trans hn (.some hcx) fun _ _ _ _ _ => Reordered.trans
  · rw [if_neg hname] at hn ⊢
    exact hn

/-- Whatever the order in which entries are visited, each of them is laid over the one that was
there, if any. -/
lemma LaysEntries.reordered {entries visited laid : List (String × Value)}
    (h : LaysEntries entries visited laid) (hl : (object entries).HasDistinctKeys)
    (hv : (object visited).HasDistinctKeys)
    (hi : ∀ entry ∈ visited, ∀ below combined, Lays below entry.2 combined →
      below.HasDistinctKeys → Reordered combined (below.overlay entry.2)) :
    (object laid).HasDistinctKeys ∧ ∀ name, Option.Rel Reordered (laid.lookup name)
      (Option.merge overlay (entries.lookup name) (visited.lookup name)) := by
  induction visited generalizing entries with
  | nil =>
      cases h
      refine ⟨hl, fun name => ?_⟩
      rw [List.lookup_nil, Option.merge_none_right]
      cases hn : laid.lookup name with
      | none => exact .none
      | some inner =>
          have hc : (object laid).child? (.key name) = some inner := hn
          exact .some (.refl (hl.child hc))
  | cons entry rest ih =>
      obtain ⟨key, above⟩ := entry
      obtain ⟨hf, hi⟩ := List.forall_mem_cons.mp hi
      obtain ⟨hk, hda, hv⟩ := hasDistinctKeys_object_cons.mp hv
      cases h with
      | fresh hn hr =>
          obtain ⟨hd, hrel⟩ := ih hr (hasDistinctKeys_put hl hda) hv hi
          refine ⟨hd, rel_lookup_cons hk ⟨above, ?_, .refl hda⟩ hrel⟩
          rw [hn, Option.merge_none_left]
      | @present _ below _ combined _ _ _ hb hlays hr =>
          have hdb : (object entries).child? (.key key) = some below := hb
          have hc := hf below combined hlays (hl.child hdb)
          obtain ⟨hd, hrel⟩ := ih hr (hasDistinctKeys_put hl hc.left) hv hi
          refine ⟨hd, rel_lookup_cons hk ⟨below.overlay above, ?_, hc⟩ hrel⟩
          rw [hb]
          rfl

lemma LaysItems.reordered {items visited laid : List Value} (h : LaysItems items visited laid)
    (hl : ∀ item ∈ items, item.HasDistinctKeys) (hv : ∀ item ∈ visited, item.HasDistinctKeys)
    (hi : ∀ item ∈ visited, ∀ below combined, Lays below item combined →
      below.HasDistinctKeys → Reordered combined (below.overlay item)) :
    List.Forall₂ Reordered laid (overlayItems items visited) := by
  have hsame : ∀ {values : List Value}, (∀ item ∈ values, item.HasDistinctKeys) →
      List.Forall₂ Reordered values values := fun hd =>
    List.forall₂_same.mpr fun item hm => .refl (hd item hm)
  induction visited generalizing items laid with
  | nil =>
      cases h with
      | upper => exact .nil
      | lower =>
          cases items with
          | nil => exact .nil
          | cons below items => exact hsame hl
  | cons above rest ih =>
      obtain ⟨hf, hi⟩ := List.forall_mem_cons.mp hi
      obtain ⟨-, hvr⟩ := List.forall_mem_cons.mp hv
      cases h with
      | upper => exact hsame hv
      | both hb hr =>
          obtain ⟨hdb, hl⟩ := List.forall_mem_cons.mp hl
          exact .cons (hf _ _ hb hdb) (ih hr hl hvr hi)

/-- **Whatever the order** in which entries are visited, at whatever depth, the result is the same
up to the order of entries, and repeats no key. -/
theorem Lays.reordered (h : Lays lower upper laid) (hl : lower.HasDistinctKeys)
    (hu : upper.HasDistinctKeys) : Reordered laid (lower.overlay upper) := by
  induction upper using memInd generalizing lower laid with
  | h upper hi he =>
      cases h with
      | apart hn =>
          rw [overlay_of_not_combinable hn]
          exact .refl hu
      | @array as bs cs hlays =>
          rw [overlay]
          refine Corresponds.array_iff.mpr (hlays.reordered hl.items hu.items ?_)
          exact fun item hm below combined hb hdb => hi item hm hb hdb (hu.items item hm)
      | @object as bs visited cs hp hlays =>
          have hdu : (Entries.keys bs).Nodup := hu.nodup
          have hdv : (Entries.keys visited).Nodup := (Entries.keys_perm hp).nodup_iff.mpr hdu
          obtain ⟨-, hdi⟩ := hasDistinctKeys_object.mp hu
          have hv : (Value.object visited).HasDistinctKeys :=
            hasDistinctKeys_object.mpr ⟨hdv, fun entry hm => hdi entry (hp.mem_iff.mp hm)⟩
          obtain ⟨hd, hrel⟩ := hlays.reordered hl hv fun entry hm below combined hb hdb =>
            he entry (hp.mem_iff.mp hm) hb hdb (hdi entry (hp.mem_iff.mp hm))
          have hdc : (Entries.keys cs).Nodup := hd.nodup
          refine ⟨hd, hl.overlay hu, ?_⟩
          rw [overlay, related_object_iff hdc]
          intro name
          rw [lookup_overlayEntries hdu, ← Entries.lookup_eq_of_perm hdv hp]
          exact rel_imp (hrel name) fun _ _ _ _ h => h.related

/-- Also a row of values gives the same in whatever order the entries of each of them are visited,
and whatever the order was in which the values had come about. -/
theorem LaysAll.reordered {lower' : Value} {values values' : List Value}
    (h : LaysAll lower values laid) (hl : Reordered lower lower')
    (hv : List.Forall₂ Reordered values values') :
    Reordered laid (values'.foldl overlay lower') := by
  induction h generalizing lower' values' with
  | nil =>
      cases hv
      exact hl
  | cons hlays _ ih =>
      cases hv with
      | cons hv hr =>
          have hn := hlays.reordered hl.left hv.left
          rw [List.foldl_cons]
          exact ih (hn.trans (hl.overlay hv)) hr

end Reshape.Value
