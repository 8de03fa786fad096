import Reshape.Proofs.Plan.Parts

/-!
Running the plan of a program gives the meaning of the program.

* `run_placed`: the part of a phrase gives what the phrase contributes, under its path.
* `run_plan`: the plan that is read off a program gives the meaning of the program.
* `run_eq_meaning`: so does the plan that is made of a program, wherever there is one.
-/

namespace Reshape

/-- The groups of an item are laid over each other, from the empty object on. -/
lemma record_eq_object (groups : List Group) (item : Value) :
    Value.record groups item = Group.object groups item := by
  rw [Value.record, Value.overlayAll, List.foldl_map, Group.object]

lemma records_eq_array (groups : List Group) (input : Value) :
    input.records groups = .array (input.items.map (Group.object groups)) := by
  rw [Value.records]
  congr 2
  exact funext fun item => record_eq_object groups item

/-- A segment at the end of a phrase selects the same by its selection. -/
lemma run_segment_selection (last : Option Segment) (input : Value) :
    ((last.map Segment.selection).getD (.constant .null)).run input =
      (last.map (Segment.selected input)).getD .null := by
  cases last with
  | none => rfl
  | some segment =>
      obtain ⟨form, p⟩ := segment
      cases form <;> rfl

/-- What the steps of a map make of an input is what the map selects. -/
lemma run_mapSelection (segments : List Segment) (input : Value) :
    (mapSelection segments (Segment.groups segments.tail)).run input =
      Segment.mapped input segments.tail := by
  cases segments with
  | nil => exact records_eq_array _ input
  | cons first steps =>
      rw [List.tail_cons]
      unfold Segment.mapped
      split
      · rfl
      · next hs =>
          have hm : mapSelection (first :: steps) (Segment.groups steps) =
              .records (Segment.groups steps) := by
            unfold mapSelection
            split
            · next h => exact absurd (List.cons.inj h).2 (hs _ _)
            · rfl
          rw [hm]
          exact records_eq_array _ input

/-- What a phrase selects is what it contributes. -/
lemma run_selection (phrase : Phrase) (input : Value) :
    phrase.selection.run input = phrase.contribution input := by
  cases phrase with
  | path segments => exact run_segment_selection _ input
  | value segments => exact run_segment_selection _ input
  | map lead segments => exact run_mapSelection segments input

/-- The part of a phrase gives what the phrase contributes, under its path. -/
lemma run_placed (phrase : Phrase) (input : Value) :
    phrase.placed.run input = (phrase.contribution input).nest phrase.outputPath := by
  rw [Phrase.placed, Part.run, run_selection]

/-! ### Whole programs -/

lemma bareSteps?_isSome_iff {phrase : Phrase} :
    phrase.bareSteps?.isSome ↔ ∃ segments, phrase = .map [] segments := by
  unfold Phrase.bareSteps?
  split <;> simp_all

/-- Phrases that do not all stand for columns are laid over each other. -/
lemma not_forall_bareSteps? {phrases : List Phrase} (h : phrases.mapM Phrase.columns? = none) :
    ¬ ∀ phrase ∈ phrases, phrase.bareSteps?.isSome := by
  intro hb
  obtain ⟨maps, hm⟩ := exists_eq_maps fun phrase hp => bareSteps?_isSome_iff.mp (hb phrase hp)
  rw [mapM_columns?_eq_some_iff.mpr hm] at h
  exact absurd h (by simp)

lemma filterMap_bareSteps? (maps : List (List Segment)) :
    (maps.map (Phrase.map [])).filterMap Phrase.bareSteps? = maps.map List.tail := by
  rw [List.filterMap_map, ← List.filterMap_eq_map]
  rfl

/-- The plan that is read off a program gives the meaning of the program. -/
lemma run_plan (program : Program) (input : Value) :
    program.plan.run input = program.meaning input := by
  obtain ⟨phrases⟩ := program
  match phrases with
  | [] => rfl
  | [phrase] => exact run_placed phrase input
  | first :: second :: rest =>
      simp only [Program.plan, Program.meaning]
      have hne : first :: second :: rest ≠ [] := List.cons_ne_nil first _
      generalize first :: second :: rest = phrases at hne
      cases hc : phrases.mapM Phrase.columns? with
      | none =>
          rw [if_neg fun h => not_forall_bareSteps? hc h.2]
          simp only [Plan.run, Value.overlayAll, List.map_map, List.foldl_map, Function.comp_apply,
            run_placed]
      | some maps =>
          obtain rfl := mapM_columns?_eq_some_iff.mp hc
          have hb : ∀ phrase ∈ maps.map (Phrase.map []), phrase.bareSteps?.isSome := by
            simp [bareSteps?_isSome_iff]
          rw [if_pos ⟨hne, hb⟩, filterMap_bareSteps?, List.flatMap_map]
          exact records_eq_array _ input

/-- **Plans keep the meaning.** Wherever a program has a plan, running the plan gives for every
input what the program means, as it is read off the tree. -/
theorem run_eq_meaning {program : Program} {plan : Plan} (h : Plan.ofProgram program = .ok plan)
    (input : Value) : plan.run input = program.meaning input := by
  obtain ⟨-, rfl⟩ := ofProgram_eq_ok_iff.mp h
  exact run_plan program input

/-- Two maps without names in front of them make one object for every item, here for the one item of
the input. -/
theorem run_eq_meaning_columns :
    Plan.ofProgram ⟨[.map [] [⟨.each, 0⟩, ⟨.property "a", 2⟩],
        .map [] [⟨.each, 5⟩, ⟨.name "b", 7⟩, ⟨.property "c", 9⟩]]⟩ =
      .ok (.columns [⟨["id"], "a"⟩, ⟨["b"], "c"⟩])
    ∧ (Plan.columns [⟨["id"], "a"⟩, ⟨["b"], "c"⟩]).run
        (.array [.object [("a", .boolean true), ("c", .null)]]) =
      .array [.object [("id", .boolean true), ("b", .null)]] := by
  have h : Plan.ofProgram ⟨[.map [] [⟨.each, 0⟩, ⟨.property "a", 2⟩],
      .map [] [⟨.each, 5⟩, ⟨.name "b", 7⟩, ⟨.property "c", 9⟩]]⟩ =
    .ok (.columns [⟨["id"], "a"⟩, ⟨["b"], "c"⟩]) := rfl
  exact ⟨h, (run_eq_meaning h _).trans rfl⟩

end Reshape
