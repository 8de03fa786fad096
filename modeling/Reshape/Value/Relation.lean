import Reshape.Number.Quantity
import Reshape.Value.Basic
import Reshape.Value.Entries

/-!
Comparing values up to the order of entries.

* `Value.HasDistinctKeys`: no object in the value has two entries for one key.
* `Value.Related`: two values have the same shape, up to the order of entries, and their numbers
  are related in a given way.
* `Value.Similar`: two values are equal up to the order of entries.
* `Value.MeansSame`: two values mean the same: their numbers denote the same.
-/

namespace Reshape.Value

mutual

/-- No object in the value has two entries for one key. -/
def HasDistinctKeys : Value → Prop
  | .array items => ItemsHaveDistinctKeys items
  | .object entries => (Entries.keys entries).Nodup ∧ EntriesHaveDistinctKeys entries
  | _ => True

/-- No object in the items has two entries for one key. -/
def ItemsHaveDistinctKeys : List Value → Prop
  | [] => True
  | item :: rest => HasDistinctKeys item ∧ ItemsHaveDistinctKeys rest

/-- No object in the values of entries has two entries for one key. -/
def EntriesHaveDistinctKeys : List (String × Value) → Prop
  | [] => True
  | (_, value) :: rest => HasDistinctKeys value ∧ EntriesHaveDistinctKeys rest

end

mutual

/-- The values have the same shape, up to the order of entries, and numbers in the same places are
related. -/
def Related (R : Number → Number → Prop) : Value → Value → Prop
  | .null, .null => True
  | .boolean a, .boolean b => a = b
  | .number a, .number b => R a b
  | .string a, .string b => a = b
  | .array as, .array bs => RelatedItems R as bs
  | .object as, .object bs =>
    (∀ key, key ∈ Entries.keys as ↔ key ∈ Entries.keys bs) ∧ RelatedEntries R as bs
  | _, _ => False

/-- As many items, related in pairs. -/
def RelatedItems (R : Number → Number → Prop) : List Value → List Value → Prop
  | [], [] => True
  | a :: as, b :: bs => Related R a b ∧ RelatedItems R as bs
  | _, _ => False

/-- Each entry is related to the one with the same key. -/
def RelatedEntries (R : Number → Number → Prop) :
    List (String × Value) → List (String × Value) → Prop
  | [], _ => True
  | (key, a) :: rest, bs =>
    (∃ b, bs.lookup key = some b ∧ Related R a b) ∧ RelatedEntries R rest bs

end

/-- The values are equal up to the order of entries. -/
def Similar : Value → Value → Prop :=
  Related (· = ·)

/-- The values mean the same. What is not a number means nothing, not even the same as itself. -/
def MeansSame : Value → Value → Prop :=
  Related fun a b => ∃ quantity, a.quantity? = some quantity ∧ b.quantity? = some quantity

end Reshape.Value
