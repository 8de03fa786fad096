import Reshape.Proofs.Value.Path
import Reshape.Value.Equality

/-!
What overlaying takes in once more without a change.

A value laid over itself, over what it was already laid over, or under what is already laid over it,
changes nothing. Of these laws only the first one needs an induction on values: a value and itself
are compatible with whatever comes before or behind them, so that the others follow by beginning
from the other end.

* `compatible_iff`: which three values are compatible, child by child.
* `compatible_self_left` and `compatible_self_right`: two of three values may be the same.
* `overlay_self`: a value laid over itself.
* `overlay_laws`: all laws of overlaying together.
-/

namespace Reshape.Value

variable {a b c : Value}

/-! ### Compatible values -/

/-- Three values are compatible unless the outer two are combined; then all three are combined, and
the children that all three have are compatible. -/
lemma compatible_iff :
    Compatible a b c ↔ (Combinable a c → Combinable a b ∧
      ∀ step x y z, a.child? step = some x → b.child? step = some y → c.child? step = some z →
        Compatible x y z) := by
  refine ⟨?_, fun h => ?_⟩
  · intro h hac
    cases h with
    | apart hn => exact absurd hac hn
    | inside hab _ h => exact ⟨hab, h⟩
  · by_cases hac : Combinable a c
    · obtain ⟨hab, h⟩ := h hac
      exact .inside hab (hab.symm.trans hac) h
    · exact .apart hac

/-- A value may be laid over itself before or after another value is laid over it. -/
lemma compatible_self_left (a b : Value) : Compatible a a b := by
  induction a using ind generalizing b with
  | h a ih =>
      rw [compatible_iff]
      intro hab
      refine ⟨hab.trans hab.symm, fun step x y z hx hy _ => ?_⟩
      obtain rfl : x = y := Option.some.inj (hx.symm.trans hy)
      exact ih step x hx z

/-- A value may be laid over itself before or after it is laid over another value. -/
lemma compatible_self_right (a b : Value) : Compatible a b b := by
  induction b using ind generalizing a with
  | h b ih =>
      rw [compatible_iff]
      intro hab
      refine ⟨hab, fun step x y z _ hy hz => ?_⟩
      obtain rfl : y = z := Option.some.inj (hy.symm.trans hz)
      exact ih step y hy x

/-! ### The laws -/

/-- Entries that are laid over themselves keep their keys. -/
lemma keys_overlayEntries_self {entries : List (String × Value)}
    (h : (Entries.keys entries).Nodup) :
    Entries.keys (overlayEntries entries entries) = Entries.keys entries := by
  have hf : (Entries.keys entries).filter (· ∉ Entries.keys entries) = [] := by
    rw [List.filter_eq_nil_iff]
    intro key hk
    simpa using hk
  rw [keys_overlayEntries h, hf, List.append_nil]

/-- A value laid over itself stays as it is. -/
lemma overlay_self (ha : a.HasDistinctKeys) : overlay a a = a := by
  induction a using ind with
  | h a ih =>
      by_cases hc : Combinable a a
      · have hk : Entries.keys (overlay a a).entries = Entries.keys a.entries := by
          cases hc with
          | objects as _ => exact keys_overlayEntries_self ha.nodup
          | arrays as _ => rfl
        refine (combinable_overlay_iff.mpr hc).eq_of_child? hk (ha.overlay ha) fun step => ?_
        rw [child?_overlay hc ha]
        cases hs : a.child? step with
        | none => rfl
        | some inner => exact congrArg some (ih step inner hs (ha.child hs))
      · exact overlay_of_not_combinable hc

/-- **The laws of overlaying.** For values without repeated keys, a value laid over itself, over what
it was laid over already, or under what was already laid over it, changes nothing, and compatible
values may be laid over each other from either end. -/
theorem overlay_laws (ha : a.HasDistinctKeys) (hb : b.HasDistinctKeys) (hc : c.HasDistinctKeys) :
    overlay a a = a
    ∧ overlay (overlay a b) b = overlay a b
    ∧ overlay a (overlay a b) = overlay a b
    ∧ (Compatible a b c → overlay (overlay a b) c = overlay a (overlay b c)) := by
  refine ⟨overlay_self ha, ?_, ?_, fun h => overlay_assoc h ha hb hc⟩
  · calc overlay (overlay a b) b
        = overlay a (overlay b b) := overlay_assoc (compatible_self_right a b) ha hb hb
      _ = overlay a b := by rw [overlay_self hb]
  · calc overlay a (overlay a b)
        = overlay (overlay a a) b := (overlay_assoc (compatible_self_left a b) ha ha hb).symm
      _ = overlay a b := by rw [overlay_self ha]

/-- Objects under one key in all three, and arrays under another one in two of them. -/
theorem overlay_laws_objects :
    Compatible (.object [("x", .object [("p", .null)]), ("y", .array [.null])])
      (.object [("x", .object [("q", .boolean true)])])
      (.object [("y", .array [.boolean false, .null]), ("x", .object [("p", .string "t")])])
    ∧ overlay (overlay (.object [("x", .object [("p", .null)]), ("y", .array [.null])])
        (.object [("x", .object [("q", .boolean true)])]))
        (.object [("y", .array [.boolean false, .null]), ("x", .object [("p", .string "t")])]) =
      overlay (.object [("x", .object [("p", .null)]), ("y", .array [.null])])
        (overlay (.object [("x", .object [("q", .boolean true)])])
          (.object [("y", .array [.boolean false, .null]),
            ("x", .object [("p", .string "t")])])) := by
  have h : Compatible (.object [("x", .object [("p", .null)]), ("y", .array [.null])])
      (.object [("x", .object [("q", .boolean true)])])
      (.object [("y", .array [.boolean false, .null]), ("x", .object [("p", .string "t")])]) := by
    refine .inside (.objects _ _) (.objects _ _) fun step x y z hx hy hz => ?_
    obtain ⟨rfl, rfl⟩ := eq_of_child?_under hy
    obtain rfl : .object [("p", .null)] = x := Option.some.inj hx
    obtain rfl : .object [("p", .string "t")] = z := Option.some.inj hz
    refine .inside (.objects _ _) (.objects _ _) fun step x y z hx hy _ => ?_
    obtain ⟨rfl, rfl⟩ := eq_of_child?_under hy
    exact absurd (eq_of_child?_under hx).1 (by decide)
  refine ⟨h, (overlay_laws ?_ ?_ ?_).2.2.2 h⟩ <;>
    simp [HasDistinctKeys, ItemsHaveDistinctKeys, EntriesHaveDistinctKeys]

/-- Null between two objects: from the lower end it replaces the first one, and from the upper end it
is replaced before that. -/
example : overlay (overlay (under "x" .null) .null) (under "y" .null) ≠
    overlay (under "x" .null) (overlay .null (under "y" .null)) := by
  decide

end Reshape.Value
