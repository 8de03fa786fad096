import Reshape.Proofs.Plan.Distinct
import Reshape.Proofs.Plan.Parts

/-!
Phrases that put what they contribute under incomparable paths.

* `run_merge_placed`: phrases that do not all make columns are laid over each other, each under its
  path.
* `independent_phrases`: what such a phrase contributes stands at the end of its path, whatever the
  others contribute, and if all paths are incomparable, the order of phrases does not matter.
-/

namespace Reshape

/-! ### Plans that lay phrases over each other -/

/-- A phrase without a path is the only one whose path is comparable with all others. -/
lemma outputPath_ne_nil {before after : List Phrase} {phrase : Phrase}
    (hl : 2 ≤ (before ++ phrase :: after).length)
    (h : ∀ other ∈ before ++ after, Incomparable phrase.outputPath other.outputPath) :
    phrase.outputPath ≠ [] := by
  have hne : before ++ after ≠ [] := by
    refine List.ne_nil_of_length_pos ?_
    rw [List.length_append, List.length_cons] at hl
    rw [List.length_append]
    omega
  obtain ⟨other, ho⟩ := List.exists_mem_of_ne_nil _ hne
  intro hp
  have hi := h other ho
  rw [hp] at hi
  exact not_incomparable_nil _ hi

lemma incomparable_of_pairwise {before after : List Phrase} {phrase : Phrase}
    (h : (before ++ phrase :: after).Pairwise fun p q => Incomparable p.outputPath q.outputPath) :
    ∀ other ∈ before ++ after, Incomparable phrase.outputPath other.outputPath := by
  obtain ⟨-, ha, hba⟩ := List.pairwise_append.mp h
  rw [List.forall_mem_append]
  exact ⟨fun other ho => (hba other ho phrase List.mem_cons_self).symm,
    (List.pairwise_cons.mp ha).1⟩

/-- Where several paths are incomparable, none of them is empty. -/
lemma outputPath_ne_nil_of_pairwise {phrases : List Phrase} (hl : 2 ≤ phrases.length)
    (h : phrases.Pairwise fun p q => Incomparable p.outputPath q.outputPath) :
    ∀ phrase ∈ phrases, phrase.outputPath ≠ [] := by
  intro phrase hp
  obtain ⟨before, after, rfl⟩ := List.append_of_mem hp
  exact outputPath_ne_nil hl (incomparable_of_pairwise h)

/-- Several phrases, one of which has a path, are laid over each other. -/
lemma plan_eq_merge {phrases : List Phrase} {phrase : Phrase} (hl : 2 ≤ phrases.length)
    (hm : phrase ∈ phrases) (hne : phrase.outputPath ≠ []) :
    Program.plan ⟨phrases⟩ = .merge (phrases.map Phrase.placed) := by
  match phrases, hl with
  | first :: second :: rest, _ =>
      simp only [Program.plan]
      generalize first :: second :: rest = phrases at hm
      cases hc : phrases.mapM Phrase.columns? with
      | none => rfl
      | some maps =>
          obtain rfl := mapM_columns?_eq_some_iff.mp hc
          obtain ⟨segments, -, rfl⟩ := List.mem_map.mp hm
          exact absurd rfl hne

lemma run_merge_placed (phrases : List Phrase) (input : Value) :
    (Plan.merge (phrases.map Phrase.placed)).run input =
      Value.layFrom Phrase.outputPath (fun phrase => phrase.selection.run input) .empty
        phrases := by
  rw [Plan.run, Value.overlayAll, List.map_map, List.foldl_map]
  rfl

/-! ### Distinct keys -/

/-- The constants of phrases are no objects. -/
lemma hasDistinctKeys_segment_selection (last : Option Segment) :
    ((last.map Segment.selection).getD (.constant .null)).HasDistinctKeys := by
  cases last with
  | none => trivial
  | some segment =>
      obtain ⟨form, p⟩ := segment
      cases form with
      | constant key value => cases value <;> trivial
      | _ => trivial

lemma hasDistinctKeys_selection (phrase : Phrase) : phrase.selection.HasDistinctKeys := by
  cases phrase with
  | path segments => exact hasDistinctKeys_segment_selection _
  | value segments => exact hasDistinctKeys_segment_selection _
  | map lead segments =>
      change (mapSelection segments _).HasDistinctKeys
      unfold mapSelection
      split <;> trivial

/-! ### Independence -/

/-- **Independent phrases.** In a program of several phrases, the phrase whose path is incomparable
with those of all others puts what it contributes at the end of its path, whatever the others
contribute. If all paths are pairwise incomparable, then the output is an object, every leaf of it
lies at the end of one of the paths or below, and the phrases may be put in any order. Several maps
without names in front of them are no such phrases, since all of them have the empty path. -/
theorem independent_phrases {program : Program} {plan : Plan}
    (h : Plan.ofProgram program = .ok plan) (hl : 2 ≤ program.phrases.length) :
    (∀ before phrase after, program.phrases = before ++ phrase :: after →
      (∀ other ∈ before ++ after, Incomparable phrase.outputPath other.outputPath) →
      ∃ part, phrase.part = .ok part ∧ part.path = phrase.outputPath
        ∧ ∀ input, (plan.run input).follow part.path = part.selection.run input)
    ∧ (program.phrases.Pairwise (fun p q => Incomparable p.outputPath q.outputPath) →
      (∀ input, (∃ entries, plan.run input = .object entries)
        ∧ ∀ place leaf, (plan.run input).at? place = some leaf → leaf.IsLeaf →
          ∃ phrase ∈ program.phrases, phrase.outputPath.map .key <+: place)
      ∧ ∀ phrases, phrases.Perm program.phrases →
        ∃ other, Plan.ofProgram ⟨phrases⟩ = .ok other
          ∧ ∀ input, input.HasDistinctKeys → (other.run input).Similar (plan.run input)) := by
  obtain ⟨phrases⟩ := program
  obtain ⟨ha, rfl⟩ := ofProgram_eq_ok_iff.mp h
  replace hl : 2 ≤ phrases.length := hl
  refine ⟨?_, ?_⟩
  · rintro before phrase after rfl ho
    have hne := outputPath_ne_nil hl ho
    refine ⟨phrase.placed, part_eq_ok_iff.mpr ⟨ha phrase (by simp), rfl⟩, rfl, ?_⟩
    intro input
    rw [plan_eq_merge hl (by simp) hne, run_merge_placed]
    exact Value.follow_layFrom hne ho
  · intro hi
    have hne := outputPath_ne_nil_of_pairwise hl hi
    have hnil : phrases ≠ [] := List.ne_nil_of_length_pos (by omega)
    obtain ⟨phrase, hm⟩ := List.exists_mem_of_ne_nil _ hnil
    rw [plan_eq_merge hl hm (hne phrase hm)]
    refine ⟨?_, ?_⟩
    · intro input
      rw [run_merge_placed]
      exact ⟨Value.exists_layFrom_eq hne, fun place leaf hat hleaf =>
        Value.exists_prefix_of_layFrom hat hleaf (.inl hnil)⟩
    · intro others ho
      have ha' : ∀ p ∈ others, p.IsArranged := fun p hp => ha p (ho.mem_iff.mp hp)
      refine ⟨_, ofProgram_eq_ok_iff.mpr ⟨ha', rfl⟩, ?_⟩
      intro input hd
      rw [plan_eq_merge (ho.length_eq ▸ hl) (ho.mem_iff.mpr hm) (hne phrase hm), run_merge_placed,
        run_merge_placed]
      exact Value.similar_layFrom_of_perm ho (ho.symm.pairwise hi fun h => h.symm)
        (fun p _ => (hasDistinctKeys_selection p).run hd) Value.hasDistinctKeys_empty

/-- The input under one key and a constant under two others. -/
theorem independent_phrases_pair :
    Plan.ofProgram ⟨[.path [⟨.name "a", 0⟩, ⟨.input, 2⟩],
        .value [⟨.name "b", 5⟩, ⟨.constant "c" (.word "x"), 7⟩]]⟩ =
      .ok (.merge [⟨["a"], .input⟩, ⟨["b", "c"], .constant (.string "x")⟩])
    ∧ ((Plan.merge [⟨["a"], .input⟩, ⟨["b", "c"], .constant (.string "x")⟩]).run
        (.boolean true)).follow ["b", "c"] = .string "x"
    ∧ ((Plan.merge [⟨["b", "c"], .constant (.string "x")⟩, ⟨["a"], .input⟩]).run
        (.boolean true)).Similar
      ((Plan.merge [⟨["a"], .input⟩, ⟨["b", "c"], .constant (.string "x")⟩]).run
        (.boolean true)) := by
  have hp : Plan.ofProgram ⟨[.path [⟨.name "a", 0⟩, ⟨.input, 2⟩],
        .value [⟨.name "b", 5⟩, ⟨.constant "c" (.word "x"), 7⟩]]⟩ =
      .ok (.merge [⟨["a"], .input⟩, ⟨["b", "c"], .constant (.string "x")⟩]) := rfl
  obtain ⟨hf, hi⟩ := independent_phrases hp (by decide)
  refine ⟨hp, ?_, ?_⟩
  · obtain ⟨part, hb, -, hf⟩ := hf [_] _ [] rfl (by decide)
    obtain rfl : ⟨["b", "c"], .constant (.string "x")⟩ = part := Except.ok.inj hb
    exact hf (.boolean true)
  · obtain ⟨other, ho, hs⟩ := (hi (by decide)).2 _ (.swap _ _ _)
    obtain rfl : .merge [⟨["b", "c"], .constant (.string "x")⟩, ⟨["a"], .input⟩] = other :=
      Except.ok.inj ho
    exact hs (.boolean true) trivial

end Reshape
