import Reshape.Proofs.Plan.Distinct
import Reshape.Proofs.Plan.Parts

/-!
The ways of putting parts together, against laying parts over each other.

* `overlay_records`: records of more groups, whose paths are incomparable, laid over records.
* `run_eq_run_merge`: no part, a single part, and columns give what overlaying gives.
-/

namespace Reshape

/-! ### Columns -/

namespace Value

/-- Items that are made of the same items are laid over each other one by one. -/
lemma overlayItems_map {α : Type} (f g : α → Value) (xs : List α) :
    overlayItems (xs.map f) (xs.map g) = xs.map fun x => (f x).overlay (g x) := by
  induction xs with
  | nil => rfl
  | cons x xs ih => rw [List.map_cons, List.map_cons, overlayItems, ih, List.map_cons]

variable {groups more : List Group} {item input : Value}

/-- The object of an item grows by groups with incomparable paths when their object is laid over
it. -/
lemma overlay_record (hg : ∀ group ∈ groups, group.path ≠ []) (hm : ∀ group ∈ more, group.path ≠ [])
    (hi : more.Pairwise fun g h => Incomparable g.path h.path) (hd : item.HasDistinctKeys) :
    (record groups item).overlay (record more item) = record (groups ++ more) item := by
  have hr := hd.record groups
  rw [record_eq_layFrom] at hr
  rw [record_eq_layFrom, record_eq_layFrom, record_eq_layFrom, layFrom_append]
  obtain ⟨entries, he⟩ : ∃ entries, layFrom Group.path (fun group => item.property group.property)
    empty groups = .object entries := exists_layFrom_eq hg
  rw [he] at hr ⊢
  exact (layFrom_eq_overlay hi hm hr fun group _ => hd.property group.property).symm

lemma overlay_records (hg : ∀ group ∈ groups, group.path ≠ [])
    (hm : ∀ group ∈ more, group.path ≠ [])
    (hi : more.Pairwise fun g h => Incomparable g.path h.path) (hd : input.HasDistinctKeys) :
    (input.records groups).overlay (input.records more) = input.records (groups ++ more) := by
  rw [records, records, records, overlay, overlayItems_map]
  congr 1
  exact List.map_congr_left fun item hm' => overlay_record hg hm hi (hd.items item hm')

/-- Records of several rows of groups are laid over the records of a first one. -/
lemma foldl_overlay_records {columns : List (List Group)}
    (hg : ∀ group ∈ groups, group.path ≠ [])
    (hc : ∀ more ∈ columns, ∀ group ∈ more, group.path ≠ [])
    (hi : ∀ more ∈ columns, more.Pairwise fun g h => Incomparable g.path h.path)
    (hd : input.HasDistinctKeys) :
    (columns.map input.records).foldl overlay (input.records groups) =
      input.records (groups ++ columns.flatten) := by
  induction columns generalizing groups with
  | nil => rw [List.flatten_nil, List.append_nil]; rfl
  | cons more columns ih =>
      obtain ⟨hm, hc⟩ := List.forall_mem_cons.mp hc
      obtain ⟨him, hi⟩ := List.forall_mem_cons.mp hi
      calc ((more :: columns).map input.records).foldl overlay (input.records groups)
          = (columns.map input.records).foldl overlay (input.records (groups ++ more)) := by
            rw [List.map_cons, List.foldl_cons, overlay_records hg hm him hd]
        _ = input.records (groups ++ more ++ columns.flatten) :=
            ih (List.forall_mem_append.mpr ⟨hg, hm⟩) hc hi
        _ = input.records (groups ++ (more :: columns).flatten) := by
            rw [List.flatten_cons, List.append_assoc]

end Value

/-! ### Plans -/

lemma path_ne_nil_of_mem_groups {steps : List Segment} {group : Group}
    (h : group ∈ Segment.groups steps) : group.path ≠ [] := by
  rw [groups_eq_map] at h
  obtain ⟨⟨names, name⟩, -, rfl⟩ := List.mem_map.mp h
  unfold Group.ofPiece
  split <;> simp_all

/-- Several maps without names in front of them make columns. -/
lemma plan_of_maps {maps : List (List Segment)} (h : 2 ≤ maps.length) :
    Program.plan ⟨maps.map (Phrase.map [])⟩ =
      .columns (maps.map fun segments => Segment.groups segments.tail).flatten := by
  match maps, h with
  | first :: second :: rest, _ =>
      simp only [Program.plan, List.map_cons]
      rw [← List.map_cons, ← List.map_cons, mapM_columns?_eq_some_iff.mpr rfl]
      rfl

/-- What maps without names in front of them make of an input, as records that are laid over each
other. -/
lemma run_columns_eq_run_merge {columns : List (List Group)} {input : Value} (hne : columns ≠ [])
    (hc : ∀ groups ∈ columns, ∀ group ∈ groups, group.path ≠ [])
    (hi : ∀ groups ∈ columns.tail, groups.Pairwise fun g h => Incomparable g.path h.path)
    (hd : input.HasDistinctKeys) :
    (Plan.columns columns.flatten).run input =
      (Plan.merge (columns.map fun groups => ⟨[], .records groups⟩)).run input := by
  cases columns with
  | nil => exact absurd rfl hne
  | cons groups columns =>
      obtain ⟨hg, hc⟩ := List.forall_mem_cons.mp hc
      have hf := Value.foldl_overlay_records hg hc hi hd
      simp only [Plan.run, Value.overlayAll, List.map_map, List.map_cons, List.foldl_cons]
      rw [List.flatten_cons, ← hf]
      rfl

/-- A single part is laid over the empty object without a change. -/
lemma run_single_eq_run_merge {part : Part} {input : Value}
    (hs : part.selection.HasDistinctKeys) (hd : input.HasDistinctKeys) :
    (Plan.single part).run input = (Plan.merge [part]).run input :=
  (Value.overlay_empty ((hs.run hd).nest part.path)).symm

/-- **Compositions agree.** For an input without repeated keys, the plans that lay nothing over each
other give what laying over each other gives: the empty plan is no part at all, a single part is one
part, and the columns of several maps without names in front of them are one part for every map, if
the paths of the groups are incomparable inside every map but the first. -/
theorem run_eq_run_merge {input : Value} (hd : input.HasDistinctKeys) :
    Plan.empty.run input = (Plan.merge []).run input
    ∧ (∀ part : Part, part.selection.HasDistinctKeys →
      (Plan.single part).run input = (Plan.merge [part]).run input)
    ∧ ∀ (maps : List (List Segment)) plan, 2 ≤ maps.length →
      Plan.ofProgram ⟨maps.map (Phrase.map [])⟩ = .ok plan →
      ∃ columns, maps.mapM mapGroups = .ok columns ∧ plan = .columns columns.flatten
        ∧ ((∀ groups ∈ columns.tail, groups.Pairwise fun g h => Incomparable g.path h.path) →
          plan.run input =
            (Plan.merge (columns.map fun groups => ⟨[], .records groups⟩)).run input) := by
  refine ⟨rfl, fun part hs => run_single_eq_run_merge hs hd, ?_⟩
  intro maps plan hl hp
  obtain ⟨ha, rfl⟩ := ofProgram_eq_ok_iff.mp hp
  rw [List.forall_mem_map] at ha
  refine ⟨maps.map fun segments => Segment.groups segments.tail,
    (mapM_eq_ok_iff fun _ _ => mapGroups_eq_ok_iff).mpr ⟨ha, rfl⟩, plan_of_maps hl, ?_⟩
  intro hi
  rw [plan_of_maps hl]
  refine run_columns_eq_run_merge ?_ ?_ hi hd
  · exact List.ne_nil_of_length_pos (by rw [List.length_map]; omega)
  · rw [List.forall_mem_map]
    exact fun _ _ _ => path_ne_nil_of_mem_groups

/-- Two maps, of which the second one makes an object with two entries under one key of every
item. -/
theorem run_eq_run_merge_columns :
    Plan.ofProgram ⟨[[⟨.each, 0⟩, ⟨.property "a", 2⟩], [⟨.each, 5⟩, ⟨.name "b", 7⟩, ⟨.name "c", 9⟩,
        ⟨.property "x", 11⟩, ⟨.name "b", 14⟩, ⟨.name "d", 16⟩, ⟨.property "a", 18⟩]].map
          (Phrase.map [])⟩ =
      .ok (.columns [⟨["id"], "a"⟩, ⟨["b", "c"], "x"⟩, ⟨["b", "d"], "a"⟩])
    ∧ (Plan.columns [⟨["id"], "a"⟩, ⟨["b", "c"], "x"⟩, ⟨["b", "d"], "a"⟩]).run
        (.array [.object [("a", .boolean true), ("x", .null)]]) =
      (Plan.merge [⟨[], .records [⟨["id"], "a"⟩]⟩,
        ⟨[], .records [⟨["b", "c"], "x"⟩, ⟨["b", "d"], "a"⟩]⟩]).run
          (.array [.object [("a", .boolean true), ("x", .null)]]) := by
  have hd : (Value.array [.object [("a", .boolean true), ("x", .null)]]).HasDistinctKeys := by
    simp [Value.HasDistinctKeys, Value.ItemsHaveDistinctKeys, Value.EntriesHaveDistinctKeys]
  have hp : Plan.ofProgram ⟨[[⟨.each, 0⟩, ⟨.property "a", 2⟩], [⟨.each, 5⟩, ⟨.name "b", 7⟩,
        ⟨.name "c", 9⟩, ⟨.property "x", 11⟩, ⟨.name "b", 14⟩, ⟨.name "d", 16⟩,
        ⟨.property "a", 18⟩]].map (Phrase.map [])⟩ =
      .ok (.columns [⟨["id"], "a"⟩, ⟨["b", "c"], "x"⟩, ⟨["b", "d"], "a"⟩]) := rfl
  obtain ⟨columns, hc, -, hr⟩ := (run_eq_run_merge hd).2.2 _ _ (by decide) hp
  obtain rfl : [[⟨["id"], "a"⟩], [⟨["b", "c"], "x"⟩, ⟨["b", "d"], "a"⟩]] = columns :=
    Except.ok.inj hc
  exact ⟨hp, hr (by decide)⟩

end Reshape
