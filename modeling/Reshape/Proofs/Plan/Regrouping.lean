import Reshape.Proofs.Plan.Repetition

/-!
Groups that are spread over maps in different ways.

* `pieces_append_names` and `groups_append_names`: names behind the last property of a map make
  neither a piece nor a group.
* `pieces_append_property` and `groups_append_property`: behind a property the groups begin anew, so
  a map may be cut there.
* `run_eq_of_groups_eq`: programs of maps without names in front of them give the same outputs if
  they have the same groups.
-/

namespace Reshape

namespace Segment

variable {steps names more : List Segment} {property : Segment} {name : String}

/-! ### Where pieces end -/

lemma pieces_of_names (hn : ∀ s ∈ names, s.IsName) : pieces names = [] := by
  induction names with
  | nil => rfl
  | cons first rest ih =>
      obtain ⟨⟨text, hf⟩, hr⟩ := List.forall_mem_cons.mp hn
      rw [pieces, hf, ih hr]

/-- Names that no property closes make no piece. -/
lemma pieces_append_names (steps : List Segment) (hn : ∀ s ∈ names, s.IsName) :
    pieces (steps ++ names) = pieces steps := by
  induction steps with
  | nil => exact pieces_of_names hn
  | cons first rest ih => rw [List.cons_append, pieces, pieces, ih]

lemma pieces_cons_property (hp : property.form = .property name) (more : List Segment) :
    pieces (property :: more) = ([], name) :: pieces more := by
  rw [pieces, hp]

/-- Steps with a property have a piece, whatever is in front of the property. -/
lemma exists_pieces_eq_cons (steps : List Segment) (hp : property.form = .property name)
    (more : List Segment) : ∃ own others, pieces (steps ++ property :: more) = own :: others := by
  induction steps with
  | nil => exact ⟨_, _, pieces_cons_property hp more⟩
  | cons first rest ih =>
      obtain ⟨own, others, hr⟩ := ih
      rw [List.cons_append, pieces, hr]
      split
      · exact ⟨_, _, rfl⟩
      · exact ⟨_, _, rfl⟩
      · exact ⟨_, _, rfl⟩

/-- A property closes its piece, and the steps behind it have pieces of their own. -/
lemma pieces_append_property (steps : List Segment) (hp : property.form = .property name)
    (more : List Segment) :
    pieces (steps ++ property :: more) = pieces (steps ++ [property]) ++ pieces more := by
  induction steps with
  | nil =>
      rw [List.nil_append, List.nil_append, pieces_cons_property hp, pieces_cons_property hp,
        pieces, List.singleton_append]
  | cons first rest ih =>
      rw [List.cons_append, List.cons_append, pieces, pieces, ih]
      split
      · rfl
      · -- the name goes to the piece that the property closes, at the latest
        obtain ⟨own, others, hr⟩ := exists_pieces_eq_cons rest hp []
        rw [hr]
        rfl
      · rfl

/-! ### Where groups end -/

lemma groups_append_names (steps : List Segment) (hn : ∀ s ∈ names, s.IsName) :
    groups (steps ++ names) = groups steps := by
  rw [groups_eq_map, pieces_append_names steps hn, groups_eq_map]

lemma groups_append_property (steps : List Segment) (hp : property.form = .property name)
    (more : List Segment) :
    groups (steps ++ property :: more) = groups (steps ++ [property]) ++ groups more := by
  rw [groups_eq_map, pieces_append_property steps hp, List.map_append]
  rfl

end Segment

/-- **Groups may be spread over maps.** Two programs of maps without names in front of them give the
same output for every input if they have plans, neither is a single map that gathers a property, and
the groups of their maps, one map after the other, are the same. Names behind the last property of a
map make no group, and the groups of a map that is cut behind a property are those of its two
parts. -/
theorem run_eq_of_groups_eq :
    (∀ (maps others : List (List Segment)) (plan other : Plan),
      Plan.ofProgram ⟨maps.map (Phrase.map [])⟩ = .ok plan →
      Plan.ofProgram ⟨others.map (Phrase.map [])⟩ = .ok other →
      maps ≠ [] → others ≠ [] →
      ¬ Program.GathersAlone ⟨maps.map (Phrase.map [])⟩ →
      ¬ Program.GathersAlone ⟨others.map (Phrase.map [])⟩ →
      maps.flatMap (fun segments => Segment.groups segments.tail) =
        others.flatMap (fun segments => Segment.groups segments.tail) →
      ∀ input, plan.run input = other.run input)
    ∧ (∀ steps names : List Segment, (∀ s ∈ names, s.IsName) →
      Segment.groups (steps ++ names) = Segment.groups steps)
    ∧ ∀ (steps more : List Segment) (property : Segment) (name : String),
      property.form = .property name →
      Segment.groups (steps ++ property :: more) =
        Segment.groups (steps ++ [property]) ++ Segment.groups more := by
  refine ⟨?_, fun steps _ => Segment.groups_append_names steps,
    fun steps more _ _ hp => Segment.groups_append_property steps hp more⟩
  intro maps others plan other h ho hne hne' hg hg' he input
  obtain ⟨-, rfl⟩ := ofProgram_eq_ok_iff.mp h
  obtain ⟨-, rfl⟩ := ofProgram_eq_ok_iff.mp ho
  calc (Program.plan ⟨maps.map (Phrase.map [])⟩).run input
      = input.records (maps.flatMap fun segments => Segment.groups segments.tail) :=
        run_plan_of_maps hne hg
    _ = input.records (others.flatMap fun segments => Segment.groups segments.tail) := by rw [he]
    _ = (Program.plan ⟨others.map (Phrase.map [])⟩).run input :=
        (run_plan_of_maps hne' hg').symm

/-- A single map with a name behind its last property, against two maps whose second one has such a
name, too: the first one alone would gather its property. -/
theorem run_eq_of_groups_eq_two :
    Plan.ofProgram ⟨[[⟨.each, 0⟩, ⟨.property "a", 2⟩, ⟨.name "b", 5⟩, ⟨.property "x", 7⟩,
        ⟨.name "c", 10⟩]].map (Phrase.map [])⟩ =
      .ok (.single ⟨[], .records [⟨["id"], "a"⟩, ⟨["b"], "x"⟩]⟩)
    ∧ Plan.ofProgram ⟨[[⟨.each, 0⟩, ⟨.property "a", 2⟩], [⟨.each, 5⟩, ⟨.name "b", 7⟩,
        ⟨.property "x", 9⟩, ⟨.name "d", 12⟩, ⟨.name "e", 14⟩]].map (Phrase.map [])⟩ =
      .ok (.columns [⟨["id"], "a"⟩, ⟨["b"], "x"⟩])
    ∧ (∀ input, (Plan.single ⟨[], .records [⟨["id"], "a"⟩, ⟨["b"], "x"⟩]⟩).run input =
      (Plan.columns [⟨["id"], "a"⟩, ⟨["b"], "x"⟩]).run input)
    ∧ Segment.groups ([⟨.property "a", 2⟩] ++ [⟨.name "c", 5⟩]) = [⟨["id"], "a"⟩]
    ∧ Segment.groups ([⟨.name "b", 2⟩] ++ ⟨.property "x", 4⟩ :: [⟨.property "a", 7⟩]) =
      [⟨["b"], "x"⟩, ⟨["id"], "a"⟩] := by
  have hp : Plan.ofProgram ⟨[[⟨.each, 0⟩, ⟨.property "a", 2⟩, ⟨.name "b", 5⟩, ⟨.property "x", 7⟩,
      ⟨.name "c", 10⟩]].map (Phrase.map [])⟩ =
      .ok (.single ⟨[], .records [⟨["id"], "a"⟩, ⟨["b"], "x"⟩]⟩) := rfl
  have ho : Plan.ofProgram ⟨[[⟨.each, 0⟩, ⟨.property "a", 2⟩], [⟨.each, 5⟩, ⟨.name "b", 7⟩,
      ⟨.property "x", 9⟩, ⟨.name "d", 12⟩, ⟨.name "e", 14⟩]].map (Phrase.map [])⟩ =
      .ok (.columns [⟨["id"], "a"⟩, ⟨["b"], "x"⟩]) := rfl
  obtain ⟨hr, hn, hc⟩ := run_eq_of_groups_eq
  refine ⟨hp, ho, ?_, ?_, ?_⟩
  · exact hr _ _ _ _ hp ho (by simp) (by simp) (by simp [Program.GathersAlone])
      (by simp [Program.GathersAlone]) rfl
  · exact hn _ _ (List.forall_mem_singleton.mpr ⟨"c", rfl⟩)
  · exact hc _ _ _ "x" rfl

end Reshape
