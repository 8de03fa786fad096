import Mathlib.Data.List.Induction
import Reshape.Proofs.Value.Path

/-!
Rows of values that are laid over each other, each under its path.

* `layFrom`: the row laid over a value, in order.
* `follow_layFrom`: what stands at the end of a path that is incomparable with all others.
* `exists_prefix_of_layFrom`: every leaf lies at the end of one of the paths or below.
* `layFrom_eq_overlay`: where paths are pairwise incomparable, the row may be put together first and
  then laid over an object as a whole.
* `similar_layFrom_of_perm`: where paths are pairwise incomparable, their order does not matter.
-/

namespace Reshape.Value

variable {α : Type} (path : α → List String) (value : α → Value)

/-- The values of a row laid over a value in order, each under its path. -/
def layFrom (lower : Value) (xs : List α) : Value :=
  xs.foldl (fun laid x => laid.overlay ((value x).nest (path x))) lower

variable {path value} {lower : Value} {xs : List α}

lemma layFrom_cons (x : α) :
    layFrom path value lower (x :: xs) =
      layFrom path value (lower.overlay ((value x).nest (path x))) xs := rfl

lemma layFrom_append (xs ys : List α) :
    layFrom path value lower (xs ++ ys) =
      layFrom path value (layFrom path value lower xs) ys :=
  List.foldl_append

lemma layFrom_concat (x : α) :
    layFrom path value lower (xs ++ [x]) =
      (layFrom path value lower xs).overlay ((value x).nest (path x)) :=
  layFrom_append xs [x]

lemma HasDistinctKeys.layFrom (hl : lower.HasDistinctKeys)
    (hv : ∀ x ∈ xs, (value x).HasDistinctKeys) :
    (layFrom path value lower xs).HasDistinctKeys := by
  have hn : ∀ nested ∈ xs.map fun x => (value x).nest (path x), nested.HasDistinctKeys :=
    List.forall_mem_map.mpr fun x hx => (hv x hx).nest (path x)
  rw [Value.layFrom, ← List.foldl_map]
  exact hasDistinctKeys_foldl_overlay hl hn

/-! ### What stands where -/

lemma follow_layFrom_of_incomparable {p : List String} (h : ∀ x ∈ xs, Incomparable p (path x)) :
    (layFrom path value lower xs).follow p = lower.follow p := by
  induction xs generalizing lower with
  | nil => rfl
  | cons x xs ih =>
      obtain ⟨hx, h⟩ := List.forall_mem_cons.mp h
      rw [layFrom_cons, ih h, follow_overlay_nest_of_incomparable _ _ hx]

/-- At the end of a path that is incomparable with all others stands its value. -/
lemma follow_layFrom {before after : List α} {x : α} (hne : path x ≠ [])
    (h : ∀ y ∈ before ++ after, Incomparable (path x) (path y)) :
    (layFrom path value empty (before ++ x :: after)).follow (path x) = value x := by
  obtain ⟨hb, ha⟩ := List.forall_mem_append.mp h
  have he : empty.follow (path x) = .null := by
    cases hp : path x with
    | nil => exact absurd hp hne
    | cons key rest => exact follow_null rest
  calc (layFrom path value empty (before ++ x :: after)).follow (path x)
      = ((layFrom path value empty before).overlay ((value x).nest (path x))).follow (path x) := by
        rw [layFrom_append, layFrom_cons, follow_layFrom_of_incomparable ha]
    _ = ((layFrom path value empty before).follow (path x)).overlay (value x) :=
        follow_overlay_nest _ _ _
    _ = overlay .null (value x) := by rw [follow_layFrom_of_incomparable hb, he]
    _ = value x := overlay_null _

/-- A row of values under paths that do not end at once is an object. -/
lemma exists_layFrom_eq (hne : ∀ x ∈ xs, path x ≠ []) :
    ∃ entries, layFrom path value empty xs = .object entries := by
  rcases List.eq_nil_or_concat' xs with rfl | ⟨xs, x, rfl⟩
  · exact ⟨[], rfl⟩
  · cases hp : path x with
    | nil => exact absurd hp (hne x (by simp))
    | cons key rest =>
        rw [layFrom_concat, hp]
        exact exists_overlay_under_eq _ _ key

/-- Every leaf inside a row lies at the end of one of the paths or below. -/
lemma exists_prefix_of_layFrom {leaf : Value} {place : Place}
    (h : (layFrom path value empty xs).at? place = some leaf) (hl : leaf.IsLeaf)
    (hp : xs ≠ [] ∨ place ≠ []) : ∃ x ∈ xs, (path x).map .key <+: place := by
  induction xs using List.reverseRecOn with
  | nil =>
      cases place with
      | nil => exact absurd hp (by simp)
      | cons step rest =>
          have hn : empty.at? (step :: rest) = none := by cases step <;> rfl
          exact absurd (h.symm.trans hn) (by simp)
  | append_singleton xs x ih =>
      rw [layFrom_concat] at h
      rcases prefix_or_at?_of_overlay_nest h hl with hx | ⟨hne, h⟩
      · exact ⟨x, by simp, hx⟩
      · obtain ⟨y, hy, hyp⟩ := ih h (.inr hne)
        exact ⟨y, List.mem_append_left _ hy, hyp⟩

/-! ### Order -/

lemma hasRoom_layFrom {p : List String} (hl : HasRoom p lower)
    (h : ∀ x ∈ xs, Incomparable p (path x)) : HasRoom p (layFrom path value lower xs) := by
  induction xs generalizing lower with
  | nil => exact hl
  | cons x xs ih =>
      obtain ⟨hx, h⟩ := List.forall_mem_cons.mp h
      exact ih (hl.overlay_nest hx (value x)) h

/-- A row of values under pairwise incomparable paths may be put together first, and then be laid
over an object as a whole. -/
lemma layFrom_eq_overlay {entries : List (String × Value)}
    (hi : xs.Pairwise fun x y => Incomparable (path x) (path y)) (hne : ∀ x ∈ xs, path x ≠ [])
    (hl : (object entries).HasDistinctKeys) (hv : ∀ x ∈ xs, (value x).HasDistinctKeys) :
    layFrom path value (.object entries) xs =
      (object entries).overlay (layFrom path value empty xs) := by
  induction xs using List.reverseRecOn with
  | nil => rw [layFrom, layFrom, List.foldl_nil, List.foldl_nil, empty, overlay, overlayEntries]
  | append_singleton xs x ih =>
      obtain ⟨hi, -, hx⟩ := List.pairwise_append.mp hi
      obtain ⟨hne, hnx⟩ := List.forall_mem_append.mp hne
      obtain ⟨hv, hvx⟩ := List.forall_mem_append.mp hv
      have hr : HasRoom (path x) (layFrom path value empty xs) :=
        hasRoom_layFrom (hasRoom_empty (hnx x (by simp))) fun y hy => (hx y hy x (by simp)).symm
      calc layFrom path value (.object entries) (xs ++ [x])
          = ((object entries).overlay (layFrom path value empty xs)).overlay
              ((value x).nest (path x)) := by rw [layFrom_concat, ih hi hne hv]
        _ = (object entries).overlay
              ((layFrom path value empty xs).overlay ((value x).nest (path x))) :=
            overlay_assoc (hr.compatible _ _) hl (hasDistinctKeys_empty.layFrom hv)
              ((hvx x (by simp)).nest _)
        _ = (object entries).overlay (layFrom path value empty (xs ++ [x])) := by
            rw [layFrom_concat]

/-- Similar values stay similar when the same row is laid over them. -/
lemma Similar.layFrom {lower' : Value} (hs : lower.Similar lower') (hl : lower.HasDistinctKeys)
    (hl' : lower'.HasDistinctKeys) (hv : ∀ x ∈ xs, (value x).HasDistinctKeys) :
    (layFrom path value lower xs).Similar (layFrom path value lower' xs) := by
  induction xs generalizing lower lower' with
  | nil => exact hs
  | cons x xs ih =>
      obtain ⟨hx, hv⟩ := List.forall_mem_cons.mp hv
      have hn := hx.nest (path x)
      exact ih (Related.overlay hl hn hl' hn hs (.refl (fun _ => rfl) hn)) (hl.overlay hn)
        (hl'.overlay hn) hv

/-- Values under pairwise incomparable paths may be laid over each other in any order. -/
lemma similar_layFrom_of_perm {ys : List α} (hp : xs.Perm ys)
    (hi : xs.Pairwise fun x y => Incomparable (path x) (path y))
    (hv : ∀ x ∈ xs, (value x).HasDistinctKeys) (hl : lower.HasDistinctKeys) :
    (layFrom path value lower xs).Similar (layFrom path value lower ys) := by
  induction hp generalizing lower with
  | nil => exact .refl (fun _ => rfl) hl
  | cons x _ ih =>
      obtain ⟨-, hi⟩ := List.pairwise_cons.mp hi
      obtain ⟨hx, hv⟩ := List.forall_mem_cons.mp hv
      exact ih hi hv (hl.overlay (hx.nest (path x)))
  | swap x y xs =>
      obtain ⟨hy, hv⟩ := List.forall_mem_cons.mp hv
      obtain ⟨hx, hv⟩ := List.forall_mem_cons.mp hv
      have hyx : Incomparable (path y) (path x) :=
        (List.pairwise_cons.mp hi).1 x List.mem_cons_self
      have hs := similar_overlay_nest_comm hyx hl hy hx
      exact hs.layFrom ((hl.overlay (hy.nest _)).overlay (hx.nest _))
        ((hl.overlay (hx.nest _)).overlay (hy.nest _)) hv
  | trans hp _ ih ih' =>
      have hv' := fun x hx => hv x (hp.mem_iff.mpr hx)
      have hi' := hp.pairwise hi fun h => h.symm
      exact Related.trans (fun _ _ _ => Eq.trans) (hl.layFrom hv) (hl.layFrom hv') (ih hi hv hl)
        (ih' hi' hv' hl)

end Reshape.Value
