import Mathlib.Data.List.Basic
import Reshape.Program.Meaning
import Reshape.Proofs.Attempt
import Reshape.Proofs.Program.Layout

/-!
The parts of a plan against the phrases of its program.

* `leadNames_eq_ok_iff` and `mapGroups_eq_ok_iff`: the names in front of a phrase and the groups of
  a map exist exactly for arranged segments, and are those that are read off the tree.
* `Phrase.placed` and `part_eq_ok_iff`: the phrases that have a part are the arranged ones, and the
  part is what the phrase selects, under its path.
* `Program.plan` and `ofProgram_eq_ok_iff`: the programs that have a plan are those whose phrases
  are all arranged, and the plan is read off the program.
-/

namespace Reshape

/-! ### Names in front -/

lemma leadNames_eq_ok_iff {kind : Phrase.Kind} {segments : List Segment} {names : List String} :
    leadNames kind segments = .ok names ↔
      (∀ s ∈ segments, s.IsName) ∧ names = segments.filterMap Segment.level? := by
  induction segments generalizing names with
  | nil => simp [leadNames, eq_comm]
  | cons first rest ih =>
      obtain ⟨form, p⟩ := first
      cases form with
      | name text =>
          rw [leadNames, List.forall_mem_cons, map_eq_ok_iff]
          refine ⟨?_, ?_⟩
          · rintro ⟨more, hm, rfl⟩
            obtain ⟨hn, rfl⟩ := ih.mp hm
            exact ⟨⟨⟨text, rfl⟩, hn⟩, rfl⟩
          · rintro ⟨⟨-, hn⟩, rfl⟩
            exact ⟨_, ih.mpr ⟨hn, rfl⟩, rfl⟩
      | _ => simp [leadNames, Segment.IsName]

/-! ### Groups -/

/-- The group of a piece of the steps of a map. -/
def Group.ofPiece (piece : List String × String) : Group :=
  ⟨if piece.1 = [] then [implicitKey] else piece.1, piece.2⟩

lemma groups_eq_map (steps : List Segment) :
    Segment.groups steps = (Segment.pieces steps).map Group.ofPiece := rfl

/-- What a piece is made of is written in the steps: its property, and the names in front of it. -/
lemma exists_of_mem_pieces {steps : List Segment} {piece : List String × String}
    (h : piece ∈ Segment.pieces steps) :
    (∃ s ∈ steps, s.form = .property piece.2)
      ∧ ∀ key ∈ piece.1, ∃ s ∈ steps, s.form = .name key := by
  induction steps generalizing piece with
  | nil => exact absurd h (by simp [Segment.pieces])
  | cons first rest ih =>
      have hr : ∀ piece ∈ Segment.pieces rest, (∃ s ∈ first :: rest, s.form = .property piece.2)
          ∧ ∀ key ∈ piece.1, ∃ s ∈ first :: rest, s.form = .name key := by
        intro piece hm
        obtain ⟨⟨s, hs, hp⟩, hn⟩ := ih hm
        refine ⟨⟨s, List.mem_cons_of_mem first hs, hp⟩, fun key hk => ?_⟩
        exact (hn key hk).imp fun s hs => ⟨List.mem_cons_of_mem first hs.1, hs.2⟩
      obtain ⟨form, p⟩ := first
      cases form with
      | property name =>
          rcases List.mem_cons.mp h with rfl | h
          · exact ⟨⟨_, List.mem_cons_self, rfl⟩, by simp⟩
          · exact hr piece h
      | name text =>
          rw [Segment.pieces] at h
          -- the name goes to the first piece, whose property stays
          cases hq : Segment.pieces rest with
          | nil =>
              rw [hq] at h
              exact absurd h (by simp)
          | cons own more =>
              rw [hq] at h hr
              obtain ⟨⟨hp, hn⟩, hm⟩ := List.forall_mem_cons.mp hr
              rcases List.mem_cons.mp h with rfl | h
              · exact ⟨hp, List.forall_mem_cons.mpr ⟨⟨_, List.mem_cons_self, rfl⟩, hn⟩⟩
              · exact hm piece h
      | _ => exact hr piece h

/-- The groups of steps when names are already read: the names belong to the first piece. -/
def groupsBehind (path : List String) (steps : List Segment) : List Group :=
  match Segment.pieces steps with
  | [] => []
  | (names, name) :: more => Group.ofPiece (path ++ names, name) :: more.map Group.ofPiece

lemma groupsBehind_nil (steps : List Segment) : groupsBehind [] steps = Segment.groups steps := by
  rw [groupsBehind, groups_eq_map]
  cases Segment.pieces steps <;> rfl

lemma groupsBehind_name (path : List String) (text : String) (p : Nat) (rest : List Segment) :
    groupsBehind path (⟨.name text, p⟩ :: rest) = groupsBehind (path ++ [text]) rest := by
  simp only [groupsBehind, Segment.pieces]
  cases Segment.pieces rest with
  | nil => rfl
  | cons piece more => simp

lemma groupsBehind_property (path : List String) (text : String) (p : Nat) (rest : List Segment) :
    groupsBehind path (⟨.property text, p⟩ :: rest) =
      Group.ofPiece (path, text) :: Segment.groups rest := by
  simp [groupsBehind, Segment.pieces, groups_eq_map]

/-- The groups of steps exist exactly if all steps are names and properties. -/
lemma groupsFrom_eq_ok_iff {path : List String} {steps : List Segment} {groups : List Group} :
    groupsFrom path steps = .ok groups ↔
      (∀ s ∈ steps, s.IsStep) ∧ groups = groupsBehind path steps := by
  induction steps generalizing path groups with
  | nil => simp [groupsFrom, groupsBehind, Segment.pieces, eq_comm]
  | cons first rest ih =>
      obtain ⟨form, p⟩ := first
      cases form with
      | name text =>
          have hs : (⟨.name text, p⟩ : Segment).IsStep := .inl ⟨text, rfl⟩
          simp only [groupsFrom, List.forall_mem_cons, groupsBehind_name, ih, hs, true_and]
      | property text =>
          have hs : (⟨.property text, p⟩ : Segment).IsStep := .inr ⟨text, rfl⟩
          have hk : (if path.isEmpty then [implicitKey] else path) =
              if path = [] then [implicitKey] else path := by
            cases path <;> rfl
          simp only [groupsFrom, List.forall_mem_cons, groupsBehind_property, hs, true_and, hk,
            map_eq_ok_iff]
          refine ⟨?_, ?_⟩
          · rintro ⟨more, hm, rfl⟩
            obtain ⟨hn, rfl⟩ := ih.mp hm
            exact ⟨hn, by rw [groupsBehind_nil]; rfl⟩
          · rintro ⟨hn, rfl⟩
            exact ⟨_, ih.mpr ⟨hn, rfl⟩, by rw [groupsBehind_nil]; rfl⟩
      | _ => simp [groupsFrom, Segment.IsStep, Segment.IsName]

/-- The groups of a map exist exactly if it begins with the map operator and goes on with names and
properties. -/
lemma mapGroups_eq_ok_iff {segments : List Segment} {groups : List Group} :
    mapGroups segments = .ok groups ↔
      (Phrase.map [] segments).IsArranged ∧ groups = Segment.groups segments.tail := by
  cases segments with
  | nil =>
      simp only [mapGroups, reduceCtorEq, false_iff, not_and]
      rintro ⟨⟩
  | cons first steps =>
      rw [isArranged_map_cons_iff]
      obtain ⟨form, p⟩ := first
      cases form with
      | each => simp [mapGroups, groupsFrom_eq_ok_iff, groupsBehind_nil]
      | _ => simp [mapGroups]

/-! ### Parts -/

/-- What a segment at the end of a phrase selects. -/
def Segment.selection (segment : Segment) : Selection :=
  match segment.form with
  | .input => .input
  | .property name => .property name
  | .constant _ value => .constant value.toValue
  | _ => .constant .null

/-- What a phrase selects, before it is put under its path. -/
def Phrase.selection : Phrase → Selection
  | .path segments => (segments.getLast?.map Segment.selection).getD (.constant .null)
  | .value segments => (segments.getLast?.map Segment.selection).getD (.constant .null)
  | .map _ segments => mapSelection segments (Segment.groups segments.tail)

/-- What is made of the names in front of a phrase exists exactly if these are names. -/
lemma map_leadNames_eq_ok_iff {kind : Phrase.Kind} {lead : List Segment}
    {make : List String → Part} {part : Part} :
    make <$> leadNames kind lead = .ok part ↔
      (∀ s ∈ lead, s.IsName) ∧ part = make (lead.filterMap Segment.level?) := by
  rw [map_eq_ok_iff]
  refine ⟨?_, ?_⟩
  · rintro ⟨names, hn, rfl⟩
    obtain ⟨hl, rfl⟩ := leadNames_eq_ok_iff.mp hn
    exact ⟨hl, rfl⟩
  · rintro ⟨hl, rfl⟩
    exact ⟨_, leadNames_eq_ok_iff.mpr ⟨hl, rfl⟩, rfl⟩

lemma pathPart_eq_ok_iff {segments : List Segment} {part : Part} :
    pathPart segments = .ok part ↔
      (Phrase.path segments).IsArranged
        ∧ part = ⟨(Phrase.path segments).outputPath, (Phrase.path segments).selection⟩ := by
  rcases List.eq_nil_or_concat' segments with rfl | ⟨lead, ⟨form, p⟩, rfl⟩
  · have hn : ¬ (Phrase.path []).IsArranged := fun h => ne_nil_of_isArranged (.inl h) rfl
    simp [pathPart, hn]
  · rw [isArranged_path_concat_iff]
    cases form <;>
      simp [pathPart, map_leadNames_eq_ok_iff, Phrase.outputPath, Segment.level?, Phrase.selection,
        Segment.selection, Segment.IsSource, List.filterMap_cons]

lemma valuePart_eq_ok_iff {segments : List Segment} {part : Part} :
    valuePart segments = .ok part ↔
      (Phrase.value segments).IsArranged
        ∧ part = ⟨(Phrase.value segments).outputPath, (Phrase.value segments).selection⟩ := by
  rcases List.eq_nil_or_concat' segments with rfl | ⟨lead, ⟨form, p⟩, rfl⟩
  · have hn : ¬ (Phrase.value []).IsArranged := fun h => ne_nil_of_isArranged (.inr h) rfl
    simp [valuePart, hn]
  · rw [isArranged_value_concat_iff]
    cases form <;>
      simp [valuePart, map_leadNames_eq_ok_iff, Phrase.outputPath, Segment.level?, Phrase.selection,
        Segment.selection, Segment.IsConstant, List.filterMap_cons]

lemma mapPart_eq_ok_iff {lead segments : List Segment} {part : Part} :
    mapPart lead segments = .ok part ↔
      (Phrase.map lead segments).IsArranged
        ∧ part = ⟨(Phrase.map lead segments).outputPath, (Phrase.map lead segments).selection⟩ := by
  refine ⟨?_, ?_⟩
  · intro h
    obtain ⟨names, hn, h⟩ := bind_eq_ok_iff.mp h
    obtain ⟨groups, hg, h⟩ := bind_eq_ok_iff.mp h
    obtain ⟨hl, rfl⟩ := leadNames_eq_ok_iff.mp hn
    obtain ⟨ha, rfl⟩ := mapGroups_eq_ok_iff.mp hg
    exact ⟨isArranged_map_iff.mpr ⟨hl, ha⟩, (Except.ok.inj h).symm⟩
  · rintro ⟨ha, rfl⟩
    obtain ⟨hl, ha⟩ := isArranged_map_iff.mp ha
    have hg := mapGroups_eq_ok_iff.mpr ⟨ha, rfl⟩
    exact bind_eq_ok_iff.mpr
      ⟨_, leadNames_eq_ok_iff.mpr ⟨hl, rfl⟩, bind_eq_ok_iff.mpr ⟨_, hg, rfl⟩⟩

/-- The part that is read off a phrase: what it selects, under its path. -/
def Phrase.placed (phrase : Phrase) : Part :=
  ⟨phrase.outputPath, phrase.selection⟩

/-- A phrase has a part exactly if it is arranged, and then the one that is read off it. -/
lemma part_eq_ok_iff {phrase : Phrase} {part : Part} :
    phrase.part = .ok part ↔ phrase.IsArranged ∧ part = phrase.placed := by
  cases phrase with
  | path segments => exact pathPart_eq_ok_iff
  | value segments => exact valuePart_eq_ok_iff
  | map lead segments => exact mapPart_eq_ok_iff

/-! ### Plans -/

/-- A row of phrases stands for columns exactly if all of them are maps without names in front. -/
lemma mapM_columns?_eq_some_iff {phrases : List Phrase} {maps : List (List Segment)} :
    phrases.mapM Phrase.columns? = some maps ↔ phrases = maps.map (Phrase.map []) := by
  induction phrases generalizing maps with
  | nil =>
      simp only [List.mapM_nil, Option.pure_def, Option.some.injEq]
      refine ⟨?_, ?_⟩
      · rintro rfl
        rfl
      · exact fun h => (List.map_eq_nil_iff.mp h.symm).symm
  | cons phrase rest ih =>
      have hc : ∀ segments, phrase.columns? = some segments ↔ phrase = .map [] segments := by
        intro segments
        unfold Phrase.columns?
        split <;> simp_all
      simp only [List.mapM_cons, Option.bind_eq_bind, Option.pure_def, Option.bind_eq_some_iff,
        Option.some.injEq, hc, ih]
      refine ⟨?_, ?_⟩
      · rintro ⟨segments, rfl, more, rfl, rfl⟩
        rfl
      · intro h
        obtain ⟨segments, more, rfl, rfl, rfl⟩ := List.map_eq_cons_iff.mp h.symm
        exact ⟨segments, rfl, more, rfl, rfl⟩

/-- Phrases that are all maps without names in front of them are known from their segments. -/
lemma exists_eq_maps {phrases : List Phrase}
    (h : ∀ phrase ∈ phrases, ∃ segments, phrase = .map [] segments) :
    ∃ maps : List (List Segment), phrases = maps.map (Phrase.map []) := by
  induction phrases with
  | nil => exact ⟨[], rfl⟩
  | cons phrase rest ih =>
      obtain ⟨⟨segments, rfl⟩, hr⟩ := List.forall_mem_cons.mp h
      obtain ⟨maps, rfl⟩ := ih hr
      exact ⟨segments :: maps, rfl⟩

/-- The plan that is read off a program. -/
def Program.plan (program : Program) : Plan :=
  match program.phrases with
  | [] => .empty
  | [phrase] => .single phrase.placed
  | phrases =>
    match phrases.mapM Phrase.columns? with
    | some maps => .columns (maps.flatMap fun segments => Segment.groups segments.tail)
    | none => .merge (phrases.map Phrase.placed)

/-- **Plans of programs**: a program has a plan exactly if all of its phrases are arranged, and then
the one that is read off it. -/
lemma ofProgram_eq_ok_iff {program : Program} {plan : Plan} :
    Plan.ofProgram program = .ok plan ↔
      (∀ phrase ∈ program.phrases, phrase.IsArranged) ∧ plan = program.plan := by
  obtain ⟨phrases⟩ := program
  match phrases with
  | [] =>
      simp only [Plan.ofProgram, Program.plan, Except.ok.injEq, List.not_mem_nil, false_implies,
        implies_true, true_and]
      exact eq_comm
  | [phrase] =>
      simp only [Plan.ofProgram, Program.plan, map_eq_ok_iff, part_eq_ok_iff, List.mem_singleton,
        forall_eq]
      refine ⟨?_, ?_⟩
      · rintro ⟨_, ⟨ha, rfl⟩, rfl⟩
        exact ⟨ha, rfl⟩
      · rintro ⟨ha, rfl⟩
        exact ⟨_, ⟨ha, rfl⟩, rfl⟩
  | first :: second :: rest =>
      simp only [Plan.ofProgram, Program.plan]
      generalize first :: second :: rest = phrases
      cases hc : phrases.mapM Phrase.columns? with
      | none =>
          simp only [map_eq_ok_iff, mapM_eq_ok_iff fun _ _ => part_eq_ok_iff]
          refine ⟨?_, ?_⟩
          · rintro ⟨_, ⟨ha, rfl⟩, rfl⟩
            exact ⟨ha, rfl⟩
          · rintro ⟨ha, rfl⟩
            exact ⟨_, ⟨ha, rfl⟩, rfl⟩
      | some maps =>
          obtain rfl := mapM_columns?_eq_some_iff.mp hc
          simp only [map_eq_ok_iff, mapM_eq_ok_iff fun _ _ => mapGroups_eq_ok_iff,
            List.forall_mem_map]
          refine ⟨?_, ?_⟩
          · rintro ⟨_, ⟨ha, rfl⟩, rfl⟩
            exact ⟨ha, rfl⟩
          · rintro ⟨ha, rfl⟩
            exact ⟨_, ⟨ha, rfl⟩, rfl⟩

end Reshape
