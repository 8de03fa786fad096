import Reshape.Value.Basic
import Reshape.Value.Entries

/-!
Laying one value over another.

* `Value.overlay`: objects are combined key by key and arrays item by item; of anything else the
  upper value stays.
* `Value.overlayAll`: values laid over each other, from the empty object on.
* `lookup_overlayEntries` and `getElem?_overlayItems`: what is found in an object or an array that
  is laid over another.
-/

namespace Reshape.Value

mutual

/-- The value `upper` laid over the value `lower`. -/
def overlay : (lower upper : Value) → Value
  | .object lower, .object upper => .object (overlayEntries lower upper)
  | .array lower, .array upper => .array (overlayItems lower upper)
  | _, upper => upper

/-- Items laid over the items in the same places. The longer side keeps its further items. -/
def overlayItems : (lower upper : List Value) → List Value
  | below :: lower, above :: upper => overlay below above :: overlayItems lower upper
  | [], upper => upper
  | lower, [] => lower

/-- Entries laid over entries. A key that is there keeps its place; new keys come last. -/
def overlayEntries : (lower upper : List (String × Value)) → List (String × Value)
  | lower, [] => lower
  | lower, (key, above) :: upper =>
    let combined := match lower.lookup key with
      | some below => overlay below above
      | none => above
    overlayEntries (Entries.put key combined lower) upper

end

/-- What is found after laying entries over entries: the values of a key that both have are laid
over each other, and of the other keys each side keeps its own. -/
theorem lookup_overlayEntries {lower upper : List (String × Value)}
    (h : (Entries.keys upper).Nodup) (key : String) :
    (overlayEntries lower upper).lookup key =
      Option.merge overlay (lower.lookup key) (upper.lookup key) := by
  induction upper generalizing lower with
  | nil =>
    rw [overlayEntries, List.lookup_nil, Option.merge_none_right]
  | cons entry rest ih =>
    obtain ⟨first, value⟩ := entry
    rw [Entries.keys_cons, List.nodup_cons] at h
    rw [overlayEntries, ih h.2, Entries.lookup_put, Entries.lookup_cons]
    by_cases hk : key = first
    · rw [if_pos hk, if_pos hk, hk, Entries.lookup_eq_none_iff.2 h.1]
      cases lower.lookup first <;> rfl
    · rw [if_neg hk, if_neg hk]

/-- The item at an index after laying items over items: where both sides have one, they are laid
over each other. -/
theorem getElem?_overlayItems (lower upper : List Value) (i : Nat) :
    (overlayItems lower upper)[i]? = Option.merge overlay lower[i]? upper[i]? := by
  induction lower generalizing upper i with
  | nil =>
    rw [overlayItems, List.getElem?_nil, Option.merge_none_left]
  | cons below lower ih =>
    cases upper with
    | nil =>
      rw [overlayItems, List.getElem?_nil, Option.merge_none_right]
      exact List.cons_ne_nil below lower
    | cons above upper =>
      rw [overlayItems]
      cases i with
      | zero => rfl
      | succ i => exact ih upper i

/-- Values laid over each other in order, from the empty object on. -/
def overlayAll (values : List Value) : Value :=
  values.foldl overlay empty

end Reshape.Value
