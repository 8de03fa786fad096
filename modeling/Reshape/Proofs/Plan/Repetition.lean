import Reshape.Proofs.Plan.Nesting
import Reshape.Proofs.Value.Repetition

/-!
Programs whose phrases come twice.

* `Program.GathersAlone`: the program is a single map, without names in front of it, of one property
  alone.
* `run_plan_of_maps`: all other programs of maps without names in front of them make one object for
  every item, whether there is one map or more.
* `run_append_self`: a program with all of its phrases twice gives what the program gives.
-/

namespace Reshape

/-- The program is a single map without names in front of it, whose only step is a property. Such a
map gathers the property, but beside a second one it makes an object for every item. -/
def Program.GathersAlone (program : Program) : Prop :=
  ∃ first name place, program.phrases = [.map [] [first, ⟨.property name, place⟩]]

variable {program : Program} {input : Value}

/-- Groups that come twice make the same objects as groups that come once. -/
lemma records_append_self (hd : input.HasDistinctKeys) (groups : List Group) :
    input.records (groups ++ groups) = input.records groups := by
  rw [Value.records, Value.records]
  congr 1
  refine List.map_congr_left fun item hi => ?_
  rw [Value.record, Value.record, List.map_append]
  refine Value.overlayAll_append_self (List.forall_mem_map.mpr fun group _ => ?_)
  exact ((hd.items item hi).property group.property).nest group.path

/-- Maps without names in front of them make one object for every item, also if there is only one
and it does not gather. -/
lemma run_plan_of_maps {maps : List (List Segment)} (hne : maps ≠ [])
    (hg : ¬ Program.GathersAlone ⟨maps.map (Phrase.map [])⟩) :
    (Program.plan ⟨maps.map (Phrase.map [])⟩).run input =
      input.records (maps.map fun segments => Segment.groups segments.tail).flatten := by
  match maps, hne with
  | [segments], _ =>
      have hs : mapSelection segments (Segment.groups segments.tail) =
          .records (Segment.groups segments.tail) := by
        unfold mapSelection
        split
        · exact absurd ⟨_, _, _, rfl⟩ hg
        · rfl
      show (mapSelection segments (Segment.groups segments.tail)).run input = _
      rw [hs, List.map_singleton, List.flatten_cons, List.flatten_nil, List.append_nil]
      rfl
  | first :: second :: rest, _ =>
      rw [plan_of_maps (by simp)]
      rfl

/-- Maps without names in front of them make the same objects when they come twice. -/
lemma run_plan_maps_append_self {maps : List (List Segment)}
    (hg : ¬ Program.GathersAlone ⟨maps.map (Phrase.map [])⟩) (hd : input.HasDistinctKeys) :
    (Program.plan ⟨(maps ++ maps).map (Phrase.map [])⟩).run input =
      (Program.plan ⟨maps.map (Phrase.map [])⟩).run input := by
  by_cases hne : maps = []
  · rw [hne]
    rfl
  have hl : 0 < maps.length := List.length_pos_iff.mpr hne
  have htwo : 2 ≤ (maps ++ maps).length := by
    rw [List.length_append]
    omega
  rw [plan_of_maps htwo, run_plan_of_maps hne hg, List.map_append, List.flatten_append]
  exact records_append_self hd _

/-- Phrases that do not all make columns are laid over each other, and a second time without a
change. -/
lemma run_plan_append_self (hd : input.HasDistinctKeys)
    (hc : ¬ ∀ phrase ∈ program.phrases, ∃ segments, phrase = .map [] segments) :
    (Program.plan ⟨program.phrases ++ program.phrases⟩).run input = program.plan.run input := by
  have hsame : ¬ program.MakesColumns := fun h => hc h.2
  have htwice : ¬ Program.MakesColumns ⟨program.phrases ++ program.phrases⟩ := fun h =>
    hc (List.forall_mem_append.mp h.2).1
  have hv : ∀ value ∈ (program.phrases.map Phrase.placed).map (·.run input),
      value.HasDistinctKeys := by
    rw [List.map_map, List.forall_mem_map]
    intro phrase _
    exact ((hasDistinctKeys_selection phrase).run hd).nest phrase.outputPath
  calc (Program.plan ⟨program.phrases ++ program.phrases⟩).run input
      = (Plan.merge ((program.phrases ++ program.phrases).map Phrase.placed)).run input :=
        run_plan_eq_run_merge htwice hd
    _ = (Plan.merge (program.phrases.map Phrase.placed)).run input := by
        rw [List.map_append, Plan.run, List.map_append, Value.overlayAll_append_self hv, Plan.run]
    _ = program.plan.run input := (run_plan_eq_run_merge hsame hd).symm

/-- **Programs may be repeated.** Values that are laid over each other, and then all of them once
more in the same order, give what they give once. So a program with a plan has a plan also with all
of its phrases twice, and its output is the same for every input without repeated keys, unless the
program is a single map that gathers a property. -/
theorem run_append_self :
    (∀ values : List Value, (∀ value ∈ values, value.HasDistinctKeys) →
      Value.overlayAll (values ++ values) = Value.overlayAll values)
    ∧ ∀ program plan, Plan.ofProgram program = .ok plan → ¬ program.GathersAlone →
      ∃ other, Plan.ofProgram ⟨program.phrases ++ program.phrases⟩ = .ok other
        ∧ ∀ input, input.HasDistinctKeys → other.run input = plan.run input := by
  refine ⟨fun values hv => Value.overlayAll_append_self hv, ?_⟩
  intro program plan h hg
  obtain ⟨ha, rfl⟩ := ofProgram_eq_ok_iff.mp h
  refine ⟨_, ofProgram_eq_ok_iff.mpr ⟨List.forall_mem_append.mpr ⟨ha, ha⟩, rfl⟩, ?_⟩
  intro input hd
  by_cases hc : ∀ phrase ∈ program.phrases, ∃ segments, phrase = .map [] segments
  · obtain ⟨phrases⟩ := program
    obtain ⟨maps, rfl⟩ := exists_eq_maps hc
    rw [← List.map_append]
    exact run_plan_maps_append_self hg hd
  · exact run_plan_append_self hd hc

/-- Two objects with a text between them, and the records of one map: the text replaces the object
before it in both passes, and the second map joins the first one to columns. -/
theorem run_append_self_records :
    Value.overlayAll ([.under "a" .null, .string "x", .under "b" .null]
      ++ [.under "a" .null, .string "x", .under "b" .null]) = .under "b" .null
    ∧ Plan.ofProgram ⟨[.map [] [⟨.each, 0⟩, ⟨.name "k", 2⟩, ⟨.property "x", 4⟩]]⟩ =
      .ok (.single ⟨[], .records [⟨["k"], "x"⟩]⟩)
    ∧ (Plan.columns [⟨["k"], "x"⟩, ⟨["k"], "x"⟩]).run (.array [.under "x" (.boolean true)]) =
      (Plan.single ⟨[], .records [⟨["k"], "x"⟩]⟩).run (.array [.under "x" (.boolean true)]) := by
  have hp : Plan.ofProgram ⟨[.map [] [⟨.each, 0⟩, ⟨.name "k", 2⟩, ⟨.property "x", 4⟩]]⟩ =
      .ok (.single ⟨[], .records [⟨["k"], "x"⟩]⟩) := rfl
  have hv : ∀ value ∈ [Value.under "a" .null, .string "x", .under "b" .null],
      value.HasDistinctKeys := by
    simp [Value.under, Value.HasDistinctKeys, Value.EntriesHaveDistinctKeys]
  obtain ⟨other, ho, hr⟩ := run_append_self.2 _ _ hp (by simp [Program.GathersAlone])
  obtain rfl : .columns [⟨["k"], "x"⟩, ⟨["k"], "x"⟩] = other := Except.ok.inj ho
  have hd : (Value.array [.under "x" (.boolean true)]).HasDistinctKeys := by
    simp [Value.under, Value.HasDistinctKeys, Value.ItemsHaveDistinctKeys,
      Value.EntriesHaveDistinctKeys]
  exact ⟨run_append_self.1 _ hv, hp, hr _ hd⟩

end Reshape
