import Reshape.Proofs.Plan.Closed
import Reshape.Proofs.Value.Laying

/-!
Running plans repeats no key.

* `record_eq_layFrom`: the object of an item is a row of properties under the paths of the groups.
* `isClosed_hasDistinctKeys`: no operation on values repeats a key.
* `Selection.HasDistinctKeys.run`: what is taken from an input without repeated keys has none
  either.
-/

namespace Reshape

namespace Value

/-- The object of an item is a row of properties, each under the path of its group. -/
lemma record_eq_layFrom (groups : List Group) (item : Value) :
    record groups item =
      layFrom Group.path (fun group => item.property group.property) empty groups := by
  rw [record, overlayAll, List.foldl_map]
  rfl

lemma isClosed_hasDistinctKeys : IsClosed HasDistinctKeys fun _ => True where
  property name h := h.property name
  items h := h.items
  array h := hasDistinctKeys_array.mpr h
  empty := hasDistinctKeys_empty
  under _ h := h.under _
  overlay hl hu := hl.overlay hu

lemma HasDistinctKeys.flat {value : Value} (h : value.HasDistinctKeys) :
    ∀ item ∈ value.flat, item.HasDistinctKeys :=
  isClosed_hasDistinctKeys.flat h

lemma HasDistinctKeys.record {item : Value} (h : item.HasDistinctKeys) (groups : List Group) :
    (record groups item).HasDistinctKeys :=
  isClosed_hasDistinctKeys.record (fun _ _ _ _ => trivial) h

end Value

/-- No object in a constant has two entries for one key. -/
def Selection.HasDistinctKeys : Selection → Prop
  | .constant value => value.HasDistinctKeys
  | _ => True

/-- What is taken from an input without repeated keys has none either. -/
lemma Selection.HasDistinctKeys.run {selection : Selection} {input : Value}
    (hs : selection.HasDistinctKeys) (h : input.HasDistinctKeys) :
    (selection.run input).HasDistinctKeys := by
  refine Value.isClosed_hasDistinctKeys.run_selection ?_ h
  cases selection with
  | constant value => exact hs
  | records groups => exact fun _ _ _ _ => trivial
  | _ => trivial

end Reshape
