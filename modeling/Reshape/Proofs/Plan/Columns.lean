import Mathlib.Data.List.Forall2
import Reshape.Proofs.Plan.Repetition
import Reshape.Proofs.Value.Corresponds

/-!
Maps that make one object for every item.

* `follow_record`: in the object of an item, the property of a group stands at the end of its path,
  if this path is incomparable with those of all other groups.
* `similar_records_of_perm`: groups under incomparable paths may come in any order.
* `columns_itemwise`: what maps without names in front of them make of an array, item by item.
-/

namespace Reshape

namespace Value

variable {groups others : List Group} {item input : Value}

/-- The object of an item is an object, since no group puts its property at the top. -/
lemma exists_record_eq (hg : ∀ group ∈ groups, group.path ≠ []) (item : Value) :
    ∃ entries, record groups item = .object entries := by
  rw [record_eq_layFrom]
  exact exists_layFrom_eq hg

/-- At the end of a path that is incomparable with all others stands the property of its group. -/
lemma follow_record {before after : List Group} {group : Group} (hne : group.path ≠ [])
    (h : ∀ other ∈ before ++ after, Incomparable group.path other.path) (item : Value) :
    (record (before ++ group :: after) item).follow group.path =
      item.property group.property := by
  rw [record_eq_layFrom]
  exact follow_layFrom hne h

/-- Groups under pairwise incomparable paths make similar objects in any order. -/
lemma similar_record_of_perm (hp : groups.Perm others)
    (hi : others.Pairwise fun g h => Incomparable g.path h.path) (hd : item.HasDistinctKeys) :
    (record groups item).Similar (record others item) := by
  rw [record_eq_layFrom, record_eq_layFrom]
  exact similar_layFrom_of_perm hp (hp.symm.pairwise hi fun h => h.symm)
    (fun group _ => hd.property group.property) hasDistinctKeys_empty

lemma similar_records_of_perm (hp : groups.Perm others)
    (hi : others.Pairwise fun g h => Incomparable g.path h.path) (hd : input.HasDistinctKeys) :
    (input.records groups).Similar (input.records others) := by
  show RelatedItems (· = ·) _ _
  rw [relatedItems_iff_forall₂, List.forall₂_map_left_iff, List.forall₂_map_right_iff,
    List.forall₂_same]
  exact fun item hm => similar_record_of_perm hp hi (hd.items item hm)

end Value

/-- Maps that do not gather a property alone do not do so in another order. -/
lemma not_gathersAlone_of_perm {maps others : List (List Segment)} (hp : others.Perm maps)
    (h : ¬ Program.GathersAlone ⟨maps.map (Phrase.map [])⟩) :
    ¬ Program.GathersAlone ⟨others.map (Phrase.map [])⟩ := by
  rintro ⟨first, name, place, ho⟩
  refine h ⟨first, name, place, List.perm_singleton.mp ?_⟩
  exact ho ▸ (hp.symm.map _)

/-- **Columns item by item.** Let a program of maps without names in front of them have a plan, and
let it not be a single map that gathers a property. Of an array it makes one object for every item,
which depends on this item only. In this object, the property of every group whose path is
incomparable with the paths of all other groups of all maps stands at the end of the path. If the
paths of all groups are pairwise incomparable, then the maps may come in any order. -/
theorem columns_itemwise {maps : List (List Segment)} {plan : Plan}
    (h : Plan.ofProgram ⟨maps.map (Phrase.map [])⟩ = .ok plan) (hne : maps ≠ [])
    (hg : ¬ Program.GathersAlone ⟨maps.map (Phrase.map [])⟩) :
    (∃ object : Value → List (String × Value),
      (∀ items, plan.run (.array items) = .array (items.map fun item => .object (object item)))
      ∧ ∀ before group after,
        maps.flatMap (fun segments => Segment.groups segments.tail) = before ++ group :: after →
        (∀ other ∈ before ++ after, Incomparable group.path other.path) →
        ∀ item, (Value.object (object item)).follow group.path = item.property group.property)
    ∧ ((maps.flatMap fun segments => Segment.groups segments.tail).Pairwise
        (fun g g' => Incomparable g.path g'.path) →
      ∀ others : List (List Segment), others.Perm maps →
        ∃ other, Plan.ofProgram ⟨others.map (Phrase.map [])⟩ = .ok other
          ∧ ∀ input, input.HasDistinctKeys → (other.run input).Similar (plan.run input)) := by
  obtain ⟨ha, rfl⟩ := ofProgram_eq_ok_iff.mp h
  have hrun : ∀ input, (Program.plan ⟨maps.map (Phrase.map [])⟩).run input =
      input.records (maps.flatMap fun segments => Segment.groups segments.tail) :=
    fun input => run_plan_of_maps hne hg
  generalize hgroups : maps.flatMap (fun segments => Segment.groups segments.tail) = groups at hrun ⊢
  have hpath : ∀ group ∈ groups, group.path ≠ [] := by
    rw [← hgroups]
    intro group hm
    obtain ⟨segments, -, hm⟩ := List.mem_flatMap.mp hm
    exact path_ne_nil_of_mem_groups hm
  refine ⟨?_, ?_⟩
  · choose object ho using Value.exists_record_eq hpath
    refine ⟨object, fun items => ?_, ?_⟩
    · rw [hrun]
      exact congrArg Value.array (List.map_congr_left fun item _ => ho item)
    · rintro before group after rfl hi item
      rw [← ho]
      exact Value.follow_record (hpath group (by simp)) hi item
  · intro hi others hp
    have ha' : ∀ phrase ∈ others.map (Phrase.map []), phrase.IsArranged := fun phrase hm =>
      ha phrase ((hp.map _).mem_iff.mp hm)
    refine ⟨_, ofProgram_eq_ok_iff.mpr ⟨ha', rfl⟩, fun input hd => ?_⟩
    have hne' : others ≠ [] := by
      rintro rfl
      exact hne hp.symm.eq_nil
    rw [hrun, run_plan_of_maps hne' (not_gathersAlone_of_perm hp hg)]
    exact Value.similar_records_of_perm (hgroups ▸ hp.flatMap_right _) hi hd

/-- Two maps, of which the first one has only a property, so that it goes under the implicit key. -/
theorem columns_itemwise_two :
    Plan.ofProgram ⟨[[⟨.each, 0⟩, ⟨.property "a", 2⟩],
        [⟨.each, 5⟩, ⟨.name "b", 7⟩, ⟨.property "x", 9⟩]].map (Phrase.map [])⟩ =
      .ok (.columns [⟨["id"], "a"⟩, ⟨["b"], "x"⟩])
    ∧ (∃ entries,
      (Plan.columns [⟨["id"], "a"⟩, ⟨["b"], "x"⟩]).run (.array [.under "a" (.boolean true)]) =
        .array [.object entries]
      ∧ (Value.object entries).follow ["id"] = .boolean true)
    ∧ ((Plan.columns [⟨["b"], "x"⟩, ⟨["id"], "a"⟩]).run
        (.array [.under "a" (.boolean true)])).Similar
      ((Plan.columns [⟨["id"], "a"⟩, ⟨["b"], "x"⟩]).run
        (.array [.under "a" (.boolean true)])) := by
  have hp : Plan.ofProgram ⟨[[⟨.each, 0⟩, ⟨.property "a", 2⟩],
        [⟨.each, 5⟩, ⟨.name "b", 7⟩, ⟨.property "x", 9⟩]].map (Phrase.map [])⟩ =
      .ok (.columns [⟨["id"], "a"⟩, ⟨["b"], "x"⟩]) := rfl
  have hd : (Value.array [.under "a" (.boolean true)]).HasDistinctKeys := by
    simp [Value.under, Value.HasDistinctKeys, Value.ItemsHaveDistinctKeys,
      Value.EntriesHaveDistinctKeys]
  obtain ⟨⟨object, hr, hf⟩, hi⟩ :=
    columns_itemwise hp (by simp) (by simp [Program.GathersAlone])
  obtain ⟨other, ho, hs⟩ := hi (by decide) _ (.swap _ _ _)
  obtain rfl : .columns [⟨["b"], "x"⟩, ⟨["id"], "a"⟩] = other := Except.ok.inj ho
  refine ⟨hp, ⟨_, hr _, ?_⟩, hs _ hd⟩
  exact hf [] ⟨["id"], "a"⟩ [_] rfl (by decide) _

end Reshape
