import Mathlib.Tactic.Common
import Reshape.Value.Place
import Reshape.Value.Relation

/-!
Values by their children, and values without repeated keys.

A child of a value is what one step leads to: the value under a key, or the item at an index.

* `Value.memInd` and `Value.ind`: what passes from items and entries to the value, or from its
  children, holds of all values.
* `hasDistinctKeys_iff`: no key comes twice in a value if none comes twice at the top and none in a
  child.
-/

namespace Reshape.Value

/-- The entries of an object, none of anything else. -/
def entries : Value → List (String × Value)
  | .object entries => entries
  | _ => []

/-! ### Children -/

lemma mem_items_of_child? {value inner : Value} {i : Nat}
    (h : value.child? (.index i) = some inner) : inner ∈ value.items := by
  cases value with
  | array items => exact List.mem_of_getElem? h
  | _ => exact absurd h (by simp [child?])

lemma mem_entries_of_child? {value inner : Value} {key : String}
    (h : value.child? (.key key) = some inner) : (key, inner) ∈ value.entries := by
  cases value with
  | object entries => exact Entries.mem_of_lookup h
  | _ => exact absurd h (by simp [child?])

/-- A property is the child under its name, and null where there is none. -/
lemma property_eq_child? (value : Value) (name : String) :
    value.property name = (value.child? (.key name)).getD .null := by
  cases value <;> rfl

/-- The induction principle of the nested inductive: a property holds of every value once it is
inherited from items and entries. -/
@[elab_as_elim]
theorem memInd {P : Value → Prop}
    (h : ∀ value, (∀ item ∈ value.items, P item) → (∀ entry ∈ value.entries, P entry.2) → P value)
    (value : Value) : P value := by
  refine @Value.rec P (fun items => ∀ item ∈ items, P item)
    (fun entries => ∀ entry ∈ entries, P entry.2) (fun entry => P entry.2)
    ?null ?boolean ?number ?string ?array ?object ?nil ?cons ?noEntry ?entries ?entry value
  case null => exact h _ (by simp [items]) (by simp [entries])
  case boolean | number | string => exact fun _ => h _ (by simp [items]) (by simp [entries])
  case array => exact fun _ ih => h _ ih (by simp [entries])
  case object => exact fun _ ih => h _ (by simp [items]) ih
  case nil | noEntry => simp
  case cons | entries => exact fun _ _ hi hr => List.forall_mem_cons.mpr ⟨hi, hr⟩
  case entry => exact fun _ _ hv => hv

/-- Induction over children, for what looks at a value through its children only. -/
@[elab_as_elim]
theorem ind {P : Value → Prop}
    (h : ∀ value, (∀ step inner, value.child? step = some inner → P inner) → P value)
    (value : Value) : P value := by
  induction value using memInd with
  | h value hi he =>
      refine h value fun step inner hc => ?_
      cases step with
      | key name => exact he (name, inner) (mem_entries_of_child? hc)
      | index i => exact hi inner (mem_items_of_child? hc)

/-! ### Distinct keys -/

lemma itemsHaveDistinctKeys_iff {items : List Value} :
    ItemsHaveDistinctKeys items ↔ ∀ item ∈ items, item.HasDistinctKeys := by
  induction items with
  | nil => simp [ItemsHaveDistinctKeys]
  | cons item rest ih => rw [ItemsHaveDistinctKeys, ih, List.forall_mem_cons]

lemma entriesHaveDistinctKeys_iff {entries : List (String × Value)} :
    EntriesHaveDistinctKeys entries ↔ ∀ entry ∈ entries, entry.2.HasDistinctKeys := by
  induction entries with
  | nil => simp [EntriesHaveDistinctKeys]
  | cons entry rest ih =>
      obtain ⟨key, value⟩ := entry
      rw [EntriesHaveDistinctKeys, ih, List.forall_mem_cons]

lemma hasDistinctKeys_array {items : List Value} :
    (array items).HasDistinctKeys ↔ ∀ item ∈ items, item.HasDistinctKeys := by
  rw [HasDistinctKeys, itemsHaveDistinctKeys_iff]

lemma hasDistinctKeys_object {entries : List (String × Value)} :
    (object entries).HasDistinctKeys ↔
      (Entries.keys entries).Nodup ∧ ∀ entry ∈ entries, entry.2.HasDistinctKeys := by
  rw [HasDistinctKeys, entriesHaveDistinctKeys_iff]

/-- No key comes twice in a value if none comes twice at the top and none in a child. -/
lemma hasDistinctKeys_iff {value : Value} :
    value.HasDistinctKeys ↔ (Entries.keys value.entries).Nodup
      ∧ ∀ step inner, value.child? step = some inner → inner.HasDistinctKeys := by
  cases value with
  | array items =>
      rw [hasDistinctKeys_array]
      refine ⟨?_, ?_⟩
      · intro h
        refine ⟨List.nodup_nil, ?_⟩
        intro step inner hc
        cases step with
        | key name => exact absurd hc (by simp [child?])
        | index i => exact h inner (mem_items_of_child? hc)
      · intro h item hi
        obtain ⟨i, hi⟩ := List.mem_iff_getElem?.mp hi
        exact h.2 (.index i) item hi
  | object entries =>
      rw [hasDistinctKeys_object]
      refine and_congr_right fun hd => ⟨?_, ?_⟩
      · intro h step inner hc
        cases step with
        | key name => exact h (name, inner) (mem_entries_of_child? hc)
        | index i => exact absurd hc (by simp [child?])
      · intro h entry he
        exact h (.key entry.1) entry.2 ((Entries.lookup_eq_some_iff hd).mpr he)
  | _ => simp [HasDistinctKeys, child?, entries]

lemma HasDistinctKeys.nodup {value : Value} (h : value.HasDistinctKeys) :
    (Entries.keys value.entries).Nodup :=
  (hasDistinctKeys_iff.mp h).1

lemma HasDistinctKeys.child {value inner : Value} {step : Place.Step} (h : value.HasDistinctKeys)
    (hc : value.child? step = some inner) : inner.HasDistinctKeys :=
  (hasDistinctKeys_iff.mp h).2 step inner hc

lemma HasDistinctKeys.property {value : Value} (h : value.HasDistinctKeys) (name : String) :
    (value.property name).HasDistinctKeys := by
  rw [property_eq_child?]
  cases hc : value.child? (.key name) with
  | none => trivial
  | some inner => exact h.child hc

lemma HasDistinctKeys.items {value : Value} (h : value.HasDistinctKeys) :
    ∀ item ∈ value.items, item.HasDistinctKeys := by
  cases value with
  | array items => exact hasDistinctKeys_array.mp h
  | _ => simp [Value.items]

lemma hasDistinctKeys_empty : empty.HasDistinctKeys := by
  rw [empty, hasDistinctKeys_object]
  exact ⟨List.nodup_nil, by simp⟩

lemma HasDistinctKeys.under {value : Value} (h : value.HasDistinctKeys) (key : String) :
    (under key value).HasDistinctKeys := by
  rw [Value.under, hasDistinctKeys_object]
  exact ⟨by simp, by simpa using h⟩

lemma HasDistinctKeys.nest {value : Value} (h : value.HasDistinctKeys) (path : List String) :
    (value.nest path).HasDistinctKeys := by
  induction path with
  | nil => exact h
  | cons key path ih => exact ih.under key

end Reshape.Value
