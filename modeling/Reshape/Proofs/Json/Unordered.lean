import Reshape.Json.Writer
import Reshape.Proofs.Value.Corresponds

/-!
Documents and the order of their entries.

* `Json.Similar` and `Json.Reordered`: two documents are equal up to the order of entries.
* `Json.Reordered.ind`: what passes from items and entries holds of such documents.
* `Json.reordered_toValue` and `Json.reordered_ofValue`: so are the values of such documents, and
  the documents of such values.
* `Json.compact_eq_of_reordered` and `Json.pretty_eq_of_reordered`: both texts of such documents are
  the same.
-/

namespace Reshape

namespace Json

/-- No object in the document has two entries for one key. -/
inductive HasDistinctKeys : Json → Prop where
  | null : HasDistinctKeys .null
  | boolean (value : Bool) : HasDistinctKeys (.boolean value)
  | number (value : Number) : HasDistinctKeys (.number value)
  | string (text : String) : HasDistinctKeys (.string text)
  | array {items : List Json} :
      (∀ item ∈ items, HasDistinctKeys item) → HasDistinctKeys (.array items)
  | object {entries : List (String × Json)} :
      (Entries.keys entries).Nodup → (∀ entry ∈ entries, HasDistinctKeys entry.2) →
      HasDistinctKeys (.object entries)

/-- The documents are equal up to the order of entries. -/
inductive Similar : Json → Json → Prop where
  | null : Similar .null .null
  | boolean (value : Bool) : Similar (.boolean value) (.boolean value)
  | number (value : Number) : Similar (.number value) (.number value)
  | string (text : String) : Similar (.string text) (.string text)
  | array {as bs : List Json} :
      (∀ i : Nat, Option.Rel Similar as[i]? bs[i]?) → Similar (.array as) (.array bs)
  | object {as bs : List (String × Json)} :
      (∀ key, Option.Rel Similar (as.lookup key) (bs.lookup key)) →
      Similar (.object as) (.object bs)

/-- No object repeats a key, and the documents are equal up to the order of entries. -/
structure Reordered (a b : Json) : Prop where
  /-- The first document repeats no key. -/
  left : a.HasDistinctKeys
  /-- The second document repeats no key. -/
  right : b.HasDistinctKeys
  /-- The documents are equal up to the order of entries. -/
  similar : Similar a b

variable {a b : Json}

/-- The induction principle of the nested inductive: a property holds of every document once it is
inherited from items and entries. -/
@[elab_as_elim]
theorem memInd {P : Json → Prop}
    (null : P .null) (boolean : ∀ value, P (.boolean value)) (number : ∀ value, P (.number value))
    (string : ∀ text, P (.string text))
    (array : ∀ items, (∀ item ∈ items, P item) → P (.array items))
    (object : ∀ entries, (∀ entry ∈ entries, P entry.2) → P (.object entries))
    (json : Json) : P json := by
  refine @Json.rec P (fun items => ∀ item ∈ items, P item)
    (fun entries => ∀ entry ∈ entries, P entry.2) (fun entry => P entry.2)
    null boolean number string array object ?nil ?cons ?noEntry ?entries ?entry json
  case nil | noEntry => simp
  case cons | entries => exact fun _ _ hi hr => List.forall_mem_cons.mpr ⟨hi, hr⟩
  case entry => exact fun _ _ hv => hv

/-- Induction over two documents that are equal up to the order of entries: what passes from items
in the same places and from entries with the same keys holds of both documents. -/
theorem Reordered.ind {P : Json → Json → Prop}
    (null : P .null .null) (boolean : ∀ value, P (.boolean value) (.boolean value))
    (number : ∀ value, P (.number value) (.number value))
    (string : ∀ text, P (.string text) (.string text))
    (array : ∀ as bs : List Json, (∀ i : Nat, Option.Rel P as[i]? bs[i]?) →
      P (.array as) (.array bs))
    (object : ∀ as bs : List (String × Json), (Entries.keys as).Nodup → (Entries.keys bs).Nodup →
      (∀ key, Option.Rel P (as.lookup key) (bs.lookup key)) → P (.object as) (.object bs))
    (h : Reordered a b) : P a b := by
  induction a using memInd generalizing b with
  | null =>
      cases h.similar
      exact null
  | boolean value =>
      cases h.similar
      exact boolean value
  | number value =>
      cases h.similar
      exact number value
  | string text =>
      cases h.similar
      exact string text
  | array as ih =>
      obtain ⟨ha, hb, hs⟩ := h
      cases ha with
      | array ha => cases hs with
        | array hs => cases hb with
          | array hb =>
              refine array _ _ fun i => Value.rel_imp (hs i) fun x y hx hy hxy => ?_
              have hm := List.mem_of_getElem? hx
              exact ih x hm ⟨ha x hm, hb y (List.mem_of_getElem? hy), hxy⟩
  | object as ih =>
      obtain ⟨ha, hb, hs⟩ := h
      cases ha with
      | object hka ha => cases hs with
        | object hs => cases hb with
          | object hkb hb =>
              refine object _ _ hka hkb fun key =>
                Value.rel_imp (hs key) fun x y hx hy hxy => ?_
              have hm := Entries.mem_of_lookup hx
              exact ih _ hm ⟨ha _ hm, hb _ (Entries.mem_of_lookup hy), hxy⟩

/-! ### From documents to values -/

lemma HasDistinctKeys.toValue (h : a.HasDistinctKeys) : a.toValue.HasDistinctKeys := by
  induction a using memInd with
  | null | boolean _ | number _ | string _ => trivial
  | array items ih =>
      cases h with
      | array h =>
          rw [Json.toValue, toValues_eq_map, Value.hasDistinctKeys_array, List.forall_mem_map]
          exact fun item hi => ih item hi (h item hi)
  | object entries ih =>
      cases h with
      | object hd h =>
          rw [Json.toValue, toEntries_eq_map, Value.hasDistinctKeys_object, Entries.keys_map,
            List.forall_mem_map]
          exact ⟨hd, fun entry he => ih entry he (h entry he)⟩

lemma similar_toValue (h : Reordered a b) : a.toValue.Similar b.toValue := by
  refine Reordered.ind (P := fun a b => a.toValue.Similar b.toValue) trivial (fun _ => rfl)
    (fun _ => rfl) (fun _ => rfl) ?array ?object h
  case array =>
    intro as bs hs
    rw [Json.toValue, Json.toValue, toValues_eq_map, toValues_eq_map]
    refine Value.relatedItems_iff.mpr fun i => ?_
    rw [List.getElem?_map, List.getElem?_map]
    exact Value.rel_map (hs i) fun _ _ _ _ hxy => hxy
  case object =>
    intro as bs hd _ hs
    rw [Json.toValue, Json.toValue, toEntries_eq_map, toEntries_eq_map, Value.Similar,
      Value.related_object_iff (by rwa [Entries.keys_map])]
    intro key
    rw [Entries.lookup_map, Entries.lookup_map]
    exact Value.rel_map (hs key) fun _ _ _ _ hxy => hxy

/-- **Reading a document** does not depend on the order of its entries. -/
lemma reordered_toValue (h : Reordered a b) : Value.Reordered a.toValue b.toValue :=
  ⟨h.left.toValue, h.right.toValue, similar_toValue h⟩

/-! ### From values to documents -/

lemma ofNumber_cases (n : Reshape.Number) :
    ofNumber n = .null ∨ ∃ number, ofNumber n = .number number := by
  unfold ofNumber
  split
  · exact .inr ⟨_, rfl⟩
  · exact .inr ⟨_, rfl⟩
  · exact .inl rfl

lemma hasDistinctKeys_ofValue {value : Value} (h : value.HasDistinctKeys) :
    (ofValue value).HasDistinctKeys := by
  induction value using Value.memInd with
  | h value hi he =>
      cases value with
      | null => exact .null
      | boolean value => exact .boolean value
      | string text => exact .string text
      | number n =>
          rw [ofValue]
          rcases ofNumber_cases n with hn | ⟨number, hn⟩
          · exact hn ▸ .null
          · exact hn ▸ .number number
      | array items =>
          rw [ofValue, ofValues_eq_map]
          refine .array (List.forall_mem_map.mpr fun item hm => ?_)
          exact hi item hm (Value.hasDistinctKeys_array.mp h item hm)
      | object entries =>
          obtain ⟨hd, h⟩ := Value.hasDistinctKeys_object.mp h
          rw [ofValue, ofEntries_eq_map]
          refine .object (by rwa [Entries.keys_map]) (List.forall_mem_map.mpr fun entry hm => ?_)
          exact he entry hm (h entry hm)

lemma similar_ofValue {v w : Value} (hv : v.HasDistinctKeys) (h : v.Similar w) :
    Similar (ofValue v) (ofValue w) := by
  induction v using Value.memInd generalizing w with
  | h v hi he =>
      cases h.cases with
      | @numbers m n hmn =>
          obtain rfl : m = n := hmn
          rw [ofValue]
          rcases ofNumber_cases m with hm | ⟨number, hm⟩
          · exact hm ▸ .null
          · exact hm ▸ .number number
      | same hs => cases v with
        | null => exact .null
        | boolean value => exact .boolean value
        | string text => exact .string text
        | number _ | array _ | object _ => exact False.elim hs
      | combined hc => cases hc with
        | arrays as bs =>
            rw [ofValue, ofValue, ofValues_eq_map, ofValues_eq_map]
            refine .array fun i => ?_
            rw [List.getElem?_map, List.getElem?_map]
            refine Value.rel_map (Value.relatedItems_iff.mp h i) fun x y hx _ hxy => ?_
            have hm : x ∈ as := List.mem_of_getElem? hx
            exact hi x hm (Value.hasDistinctKeys_array.mp hv x hm) hxy
        | objects as bs =>
            rw [ofValue, ofValue, ofEntries_eq_map, ofEntries_eq_map]
            refine .object fun key => ?_
            rw [Entries.lookup_map, Entries.lookup_map]
            obtain ⟨hd, hv⟩ := Value.hasDistinctKeys_object.mp hv
            refine Value.rel_map ((Value.related_object_iff hd).mp h key) fun x y hx _ hxy => ?_
            have hm : (key, x) ∈ as := Entries.mem_of_lookup hx
            exact he _ hm (hv _ hm) hxy

/-- **Writing a value** as a document does not depend on the order of its entries. -/
lemma reordered_ofValue {v w : Value} (h : v.Reordered w) : Reordered (ofValue v) (ofValue w) :=
  ⟨hasDistinctKeys_ofValue h.left, hasDistinctKeys_ofValue h.right,
    similar_ofValue h.left h.related⟩

/-! ### Texts -/

section Text

variable {β : Type} {f : Json → β}

/-- What is made of items is the same for both lists, if it is the same item by item. -/
lemma map_items_eq {as bs : List Json}
    (h : ∀ i : Nat, Option.Rel (fun a b => f a = f b) as[i]? bs[i]?) : as.map f = bs.map f := by
  refine List.ext_getElem? fun i => ?_
  rw [List.getElem?_map, List.getElem?_map]
  exact Value.map_eq_of_rel (h i) fun _ _ _ _ hab => hab

/-- What is made of entries is the same when it is sorted, if it is the same key by key. -/
lemma sort_map_entries_eq {as bs : List (String × Json)} (ha : (Entries.keys as).Nodup)
    (hb : (Entries.keys bs).Nodup)
    (h : ∀ key, Option.Rel (fun a b => f a = f b) (as.lookup key) (bs.lookup key)) :
    Entries.sort (as.map fun entry => (entry.1, f entry.2)) =
      Entries.sort (bs.map fun entry => (entry.1, f entry.2)) := by
  refine Entries.sort_eq_of_lookup (by rwa [Entries.keys_map]) (by rwa [Entries.keys_map]) ?_
  intro key
  rw [Entries.lookup_map, Entries.lookup_map]
  exact Value.map_eq_of_rel (h key) fun _ _ _ _ hab => hab

end Text

/-- **Both texts** of a document do not depend on the order of its entries. -/
lemma compact_eq_of_reordered (h : Reordered a b) : a.compact = b.compact := by
  refine Reordered.ind (P := fun a b => a.compact = b.compact) rfl (fun _ => rfl) (fun _ => rfl)
    (fun _ => rfl) ?array ?object h
  case array =>
    intro as bs hs
    rw [compact, compact, compactItems_eq_map, compactItems_eq_map, map_items_eq hs]
  case object =>
    intro as bs ha hb hs
    rw [compact, compact, entryTexts, entryTexts, compactEntries_eq_map, compactEntries_eq_map,
      sort_map_entries_eq ha hb hs]

lemma prettyAt_eq_of_reordered (h : Reordered a b) (indent : String) :
    a.prettyAt indent = b.prettyAt indent := by
  refine Reordered.ind (P := fun a b => ∀ indent, a.prettyAt indent = b.prettyAt indent)
    (fun _ => rfl) (fun _ _ => rfl) (fun _ _ => rfl) (fun _ _ => rfl) ?array ?object h indent
  case array =>
    intro as bs hs indent
    have hi := map_items_eq fun i =>
      Value.rel_imp (hs i) fun _ _ _ _ hab => hab (indent ++ "  ")
    rw [prettyAt, prettyAt, prettyItems_eq_map, prettyItems_eq_map, hi]
  case object =>
    intro as bs ha hb hs indent
    have he := sort_map_entries_eq ha hb fun key =>
      Value.rel_imp (hs key) fun _ _ _ _ hab => hab (indent ++ "  ")
    rw [prettyAt, prettyAt, entryTexts, entryTexts, prettyEntries_eq_map, prettyEntries_eq_map, he]

lemma pretty_eq_of_reordered (h : Reordered a b) : a.pretty = b.pretty :=
  prettyAt_eq_of_reordered h ""

end Json

end Reshape
