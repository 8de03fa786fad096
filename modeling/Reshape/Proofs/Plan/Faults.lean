import Reshape.Proofs.Plan.Parts

/-!
Why a program has no plan.

* `IsFirstWithout`: the first member of a list that has not a property.
* `Phrase.HasFault`: what is wrong with the segments of a phrase, and where.
* `part_eq_error_iff`: a phrase has no part exactly because of its fault.
* `ofProgram_eq_error_iff_part`: whichever way the parts of a program are put together, it is
  rejected exactly if one of its phrases has no part, and for the first one of these.
* `ofProgram_eq_error_iff`: so it is rejected as the first of its phrases is that is rejected alone.
-/

namespace Reshape

/-! ### The first member without a property -/

section First

variable {α β γ ε : Type} {P Q : α → Prop} {x y : α} {xs : List α} {reason : ε}

/-- The member is the first one of the list without the property: all those in front of it have
it. -/
def IsFirstWithout (P : α → Prop) (xs : List α) (x : α) : Prop :=
  ∃ before after, xs = before ++ x :: after ∧ (∀ y ∈ before, P y) ∧ ¬ P x

lemma not_isFirstWithout_nil : ¬ IsFirstWithout P [] x := by
  rintro ⟨before, after, h, -⟩
  exact absurd h (by simp)

lemma isFirstWithout_cons_iff :
    IsFirstWithout P (x :: xs) y ↔ (¬ P x ∧ y = x) ∨ (P x ∧ IsFirstWithout P xs y) := by
  refine ⟨?_, ?_⟩
  · rintro ⟨before, after, h, hb, hy⟩
    cases before with
    | nil =>
        obtain ⟨rfl, -⟩ := List.cons.inj h
        exact .inl ⟨hy, rfl⟩
    | cons first before =>
        obtain ⟨rfl, rfl⟩ := List.cons.inj h
        obtain ⟨hx, hb⟩ := List.forall_mem_cons.mp hb
        exact .inr ⟨hx, before, after, rfl, hb, hy⟩
  · rintro (⟨hx, rfl⟩ | ⟨hx, before, after, rfl, hb, hy⟩)
    · exact ⟨[], xs, rfl, by simp, hx⟩
    · exact ⟨x :: before, after, rfl, List.forall_mem_cons.mpr ⟨hx, hb⟩, hy⟩

/-- There is a first member without the property exactly if there is a member without it. -/
lemma exists_isFirstWithout_iff : (∃ x, IsFirstWithout P xs x) ↔ ∃ x ∈ xs, ¬ P x := by
  induction xs with
  | nil => simp [not_isFirstWithout_nil]
  | cons first rest ih =>
      by_cases hf : P first
      · simp [isFirstWithout_cons_iff, hf, ih]
      · simp [isFirstWithout_cons_iff, hf]

lemma isFirstWithout_congr (h : ∀ x, P x ↔ Q x) :
    IsFirstWithout P xs x ↔ IsFirstWithout Q xs x := by
  rw [funext fun x => propext (h x)]

lemma IsFirstWithout.mem (h : IsFirstWithout P xs x) : x ∈ xs := by
  obtain ⟨before, after, rfl, -⟩ := h
  simp

lemma IsFirstWithout.not (h : IsFirstWithout P xs x) : ¬ P x := by
  obtain ⟨-, -, -, -, hx⟩ := h
  exact hx

lemma exists_error_iff {x : Except ε α} : (∃ reason, x = .error reason) ↔ ¬ ∃ a, x = .ok a := by
  cases x <;> simp

/-- A row of attempts fails as the first of them does that fails. -/
lemma mapM_eq_error_iff {f : α → Except ε β} :
    xs.mapM f = .error reason ↔
      ∃ x, IsFirstWithout (fun x => ∃ y, f x = .ok y) xs x ∧ f x = .error reason := by
  induction xs with
  | nil => simp [not_isFirstWithout_nil, pure, Except.pure]
  | cons first rest ih =>
      rw [List.mapM_cons]
      simp only [isFirstWithout_cons_iff]
      cases hf : f first with
      | error other => simp [bind, Except.bind, hf]
      | ok y =>
          have hl : (do let y ← Except.ok y; let rest ← rest.mapM f; pure (y :: rest)) =
              (y :: ·) <$> rest.mapM f := by
            cases rest.mapM f <;> rfl
          rw [hl, map_eq_error_iff, ih]
          simp

end First

/-! ### Faults of phrases -/

/-- What is wrong with segments that have to be names and then one that has a property: there are
none, the last one has not the property, or the first one of the others that is no name. -/
inductive HasEndFault (P : Segment → Prop) (other : Fault) (segments : List Segment) :
    Nat → Fault → Prop where
  | empty : segments = [] → HasEndFault P other segments 0 .noSegments
  | last {last : Segment} :
      segments.getLast? = some last → ¬ P last → HasEndFault P other segments last.position other
  | lead {last s : Segment} :
      segments.getLast? = some last → P last → IsFirstWithout Segment.IsName segments.dropLast s →
      HasEndFault P other segments s.position .leadStep

/-- What is wrong with the segments of a map: the first one in front that is no name, there are none
behind, these do not begin with the map operator, or the first one behind it that is neither a name
nor a property. -/
inductive HasMapFault (lead : List Segment) : List Segment → Nat → Fault → Prop where
  | lead {segments : List Segment} {s : Segment} :
      IsFirstWithout Segment.IsName lead s → HasMapFault lead segments s.position .leadStep
  | empty : (∀ s ∈ lead, s.IsName) → HasMapFault lead [] 0 .noSegments
  | start {first : Segment} {steps : List Segment} :
      (∀ s ∈ lead, s.IsName) → first.form ≠ .each →
      HasMapFault lead (first :: steps) first.position .mapStart
  | step {first s : Segment} {steps : List Segment} :
      (∀ s ∈ lead, s.IsName) → first.form = .each → IsFirstWithout Segment.IsStep steps s →
      HasMapFault lead (first :: steps) s.position .mapStep

/-- What is wrong with the segments of a phrase, and where. -/
def Phrase.HasFault (position : Nat) (fault : Fault) : Phrase → Prop
  | .path segments => HasEndFault Segment.IsSource .pathEnd segments position fault
  | .value segments => HasEndFault Segment.IsConstant .valueEnd segments position fault
  | .map lead segments => HasMapFault lead segments position fault

variable {rejection : Rejection}

/-- Names in front of a phrase are rejected for the first segment that is no name. -/
lemma leadNames_eq_error_iff {kind : Phrase.Kind} {lead : List Segment} :
    leadNames kind lead = .error rejection ↔
      ∃ s, IsFirstWithout Segment.IsName lead s
        ∧ Rejection.malformedPhrase kind s.position .leadStep = rejection := by
  induction lead with
  | nil => simp [leadNames, not_isFirstWithout_nil]
  | cons first rest ih =>
      obtain ⟨form, p⟩ := first
      cases form with
      | name text =>
          have hn : (⟨.name text, p⟩ : Segment).IsName := ⟨text, rfl⟩
          simp only [leadNames, map_eq_error_iff, ih, isFirstWithout_cons_iff, hn, not_true,
            false_and, true_and, false_or]
      | _ => simp [leadNames, isFirstWithout_cons_iff, Segment.IsName]

/-- The steps of a map are rejected for the first segment that is no name and no property. -/
lemma groupsFrom_eq_error_iff {path : List String} {steps : List Segment} :
    groupsFrom path steps = .error rejection ↔
      ∃ s, IsFirstWithout Segment.IsStep steps s
        ∧ Rejection.malformedPhrase .map s.position .mapStep = rejection := by
  induction steps generalizing path with
  | nil => simp [groupsFrom, not_isFirstWithout_nil]
  | cons first rest ih =>
      obtain ⟨form, p⟩ := first
      cases form with
      | name text =>
          have hs : (⟨.name text, p⟩ : Segment).IsStep := .inl ⟨text, rfl⟩
          simp only [groupsFrom, ih, isFirstWithout_cons_iff, hs, not_true, false_and, true_and,
            false_or]
      | property text =>
          have hs : (⟨.property text, p⟩ : Segment).IsStep := .inr ⟨text, rfl⟩
          simp only [groupsFrom, map_eq_error_iff, ih, isFirstWithout_cons_iff, hs, not_true,
            false_and, true_and, false_or]
      | _ => simp [groupsFrom, isFirstWithout_cons_iff, Segment.IsStep, Segment.IsName]

/-! ### Parts of phrases -/

section End

variable {P : Segment → Prop} {other fault : Fault} {position : Nat}

lemma hasEndFault_nil_iff :
    HasEndFault P other [] position fault ↔ position = 0 ∧ fault = .noSegments := by
  refine ⟨?_, ?_⟩
  · intro h
    cases h with
    | empty _ => exact ⟨rfl, rfl⟩
    | last hl _ => exact absurd hl (by simp)
    | lead hl _ _ => exact absurd hl (by simp)
  · rintro ⟨rfl, rfl⟩
    exact .empty rfl

lemma hasEndFault_concat_iff {lead : List Segment} {last : Segment} :
    HasEndFault P other (lead ++ [last]) position fault ↔
      (¬ P last ∧ position = last.position ∧ fault = other)
      ∨ (P last ∧ ∃ s, IsFirstWithout Segment.IsName lead s ∧ position = s.position
        ∧ fault = .leadStep) := by
  have hlast : (lead ++ [last]).getLast? = some last := List.getLast?_concat
  refine ⟨?_, ?_⟩
  · intro h
    cases h with
    | empty h => exact absurd h (by simp)
    | last hl hp =>
        obtain rfl := Option.some.inj (hlast.symm.trans hl)
        exact .inl ⟨hp, rfl, rfl⟩
    | @lead _ s hl hp hs =>
        obtain rfl := Option.some.inj (hlast.symm.trans hl)
        rw [List.dropLast_concat] at hs
        exact .inr ⟨hp, s, hs, rfl, rfl⟩
  · rintro (⟨hp, rfl, rfl⟩ | ⟨hp, s, hs, rfl, rfl⟩)
    · exact .last hlast hp
    · refine .lead hlast hp ?_
      rwa [List.dropLast_concat]

end End

lemma pathPart_eq_error_iff {segments : List Segment} :
    pathPart segments = .error rejection ↔
      ∃ position fault, (Phrase.path segments).HasFault position fault
        ∧ Rejection.malformedPhrase .path position fault = rejection := by
  rcases List.eq_nil_or_concat' segments with rfl | ⟨lead, ⟨form, p⟩, rfl⟩
  · simp [pathPart, Phrase.HasFault, hasEndFault_nil_iff]
  · cases form <;>
      simp [pathPart, map_eq_error_iff, leadNames_eq_error_iff, Phrase.HasFault,
        hasEndFault_concat_iff, Segment.IsSource]

lemma valuePart_eq_error_iff {segments : List Segment} :
    valuePart segments = .error rejection ↔
      ∃ position fault, (Phrase.value segments).HasFault position fault
        ∧ Rejection.malformedPhrase .value position fault = rejection := by
  rcases List.eq_nil_or_concat' segments with rfl | ⟨lead, ⟨form, p⟩, rfl⟩
  · simp [valuePart, Phrase.HasFault, hasEndFault_nil_iff]
  · cases form <;>
      simp [valuePart, map_eq_error_iff, leadNames_eq_error_iff, Phrase.HasFault,
        hasEndFault_concat_iff, Segment.IsConstant]

section Map

variable {lead segments steps : List Segment} {first : Segment} {position : Nat} {fault : Fault}

/-- The names in front of a map are looked at before its segments. -/
lemma hasMapFault_iff :
    HasMapFault lead segments position fault ↔
      (∃ s, IsFirstWithout Segment.IsName lead s ∧ position = s.position ∧ fault = .leadStep)
      ∨ ((∀ s ∈ lead, s.IsName) ∧ HasMapFault [] segments position fault) := by
  have hnil : ∀ s ∈ ([] : List Segment), s.IsName := by simp
  refine ⟨?_, ?_⟩
  · intro h
    cases h with
    | lead hs => exact .inl ⟨_, hs, rfl, rfl⟩
    | empty hl => exact .inr ⟨hl, .empty hnil⟩
    | start hl hf => exact .inr ⟨hl, .start hnil hf⟩
    | step hl hf hs => exact .inr ⟨hl, .step hnil hf hs⟩
  · rintro (⟨s, hs, rfl, rfl⟩ | ⟨hl, h⟩)
    · exact .lead hs
    · cases h with
      | lead hs => exact absurd hs not_isFirstWithout_nil
      | empty _ => exact .empty hl
      | start _ hf => exact .start hl hf
      | step _ hf hs => exact .step hl hf hs

lemma hasMapFault_nil_iff :
    HasMapFault [] [] position fault ↔ position = 0 ∧ fault = .noSegments := by
  refine ⟨?_, ?_⟩
  · intro h
    cases h with
    | lead hs => exact absurd hs not_isFirstWithout_nil
    | empty _ => exact ⟨rfl, rfl⟩
  · rintro ⟨rfl, rfl⟩
    exact .empty (by simp)

lemma hasMapFault_cons_iff :
    HasMapFault [] (first :: steps) position fault ↔
      (first.form ≠ .each ∧ position = first.position ∧ fault = .mapStart)
      ∨ (first.form = .each ∧ ∃ s, IsFirstWithout Segment.IsStep steps s ∧ position = s.position
        ∧ fault = .mapStep) := by
  have hnil : ∀ s ∈ ([] : List Segment), s.IsName := by simp
  refine ⟨?_, ?_⟩
  · intro h
    cases h with
    | lead hs => exact absurd hs not_isFirstWithout_nil
    | start _ hf => exact .inl ⟨hf, rfl, rfl⟩
    | step _ hf hs => exact .inr ⟨hf, _, hs, rfl, rfl⟩
  · rintro (⟨hf, rfl, rfl⟩ | ⟨hf, s, hs, rfl, rfl⟩)
    · exact .start hnil hf
    · exact .step hnil hf hs

lemma mapGroups_eq_error_iff :
    mapGroups segments = .error rejection ↔
      ∃ position fault, HasMapFault [] segments position fault
        ∧ Rejection.malformedPhrase .map position fault = rejection := by
  cases segments with
  | nil => simp [mapGroups, hasMapFault_nil_iff]
  | cons first steps =>
      obtain ⟨form, p⟩ := first
      cases form <;> simp [mapGroups, hasMapFault_cons_iff, groupsFrom_eq_error_iff]

lemma mapPart_eq_error_iff :
    mapPart lead segments = .error rejection ↔
      ∃ position fault, (Phrase.map lead segments).HasFault position fault
        ∧ Rejection.malformedPhrase .map position fault = rejection := by
  have hp : mapPart lead segments = .error rejection ↔
      leadNames .map lead = .error rejection
        ∨ (∃ names, leadNames .map lead = .ok names) ∧ mapGroups segments = .error rejection := by
    simp [mapPart, bind_eq_error_iff, pure, Except.pure]
  have hn : (∃ names, leadNames .map lead = .ok names) ↔ ∀ s ∈ lead, s.IsName := by
    simp [leadNames_eq_ok_iff]
  rw [hp, hn, leadNames_eq_error_iff, mapGroups_eq_error_iff]
  refine ⟨?_, ?_⟩
  · rintro (⟨s, hs, rfl⟩ | ⟨hl, position, fault, hf, rfl⟩)
    · exact ⟨_, _, .lead hs, rfl⟩
    · exact ⟨position, fault, hasMapFault_iff.mpr (.inr ⟨hl, hf⟩), rfl⟩
  · rintro ⟨position, fault, hf, rfl⟩
    rcases hasMapFault_iff.mp hf with ⟨s, hs, rfl, rfl⟩ | ⟨hl, hf⟩
    · exact .inl ⟨s, hs, rfl⟩
    · exact .inr ⟨hl, position, fault, hf, rfl⟩

end Map

/-- A phrase has no part exactly because of its fault. -/
lemma part_eq_error_iff {phrase : Phrase} :
    phrase.part = .error rejection ↔
      ∃ position fault, phrase.HasFault position fault
        ∧ Rejection.malformedPhrase phrase.kind position fault = rejection := by
  cases phrase with
  | path segments => exact pathPart_eq_error_iff
  | value segments => exact valuePart_eq_error_iff
  | map lead segments => exact mapPart_eq_error_iff

/-! ### Programs -/

/-- Segments that stand for columns are rejected as the map of them is. -/
lemma mapPart_nil_eq (segments : List Segment) :
    mapPart [] segments =
      (fun groups => ⟨[], mapSelection segments groups⟩) <$> mapGroups segments := by
  rw [mapPart]
  cases mapGroups segments <;> rfl

/-- Whichever way its parts are put together, a program is rejected as its phrases are, one after
the other. -/
lemma ofProgram_eq_error_iff_part {program : Program} :
    Plan.ofProgram program = .error rejection ↔
      program.phrases.mapM Phrase.part = .error rejection := by
  obtain ⟨phrases⟩ := program
  match phrases with
  | [] => simp [Plan.ofProgram, pure, Except.pure]
  | [phrase] => simp [Plan.ofProgram, map_eq_error_iff, bind_eq_error_iff, pure, Except.pure]
  | first :: second :: rest =>
      simp only [Plan.ofProgram]
      generalize first :: second :: rest = phrases
      cases hc : phrases.mapM Phrase.columns? with
      | none => simp only [map_eq_error_iff]
      | some maps =>
          obtain rfl := mapM_columns?_eq_some_iff.mp hc
          have hp : ∀ segments, (Phrase.map [] segments).part =
              (fun groups => ⟨[], mapSelection segments groups⟩) <$> mapGroups segments :=
            mapPart_nil_eq
          rw [map_eq_error_iff, List.mapM_map, mapM_eq_error_iff, mapM_eq_error_iff]
          refine exists_congr fun segments => and_congr (isFirstWithout_congr fun segments => ?_) ?_
          · simp [hp, map_eq_ok_iff]
          · rw [Function.comp_apply, hp, map_eq_error_iff]

lemma ofProgram_singleton_eq_error_iff {phrase : Phrase} :
    Plan.ofProgram ⟨[phrase]⟩ = .error rejection ↔ phrase.part = .error rejection :=
  map_eq_error_iff

lemma exists_ofProgram_singleton_iff {phrase : Phrase} :
    (∃ plan, Plan.ofProgram ⟨[phrase]⟩ = .ok plan) ↔ ∃ part, phrase.part = .ok part := by
  simp [Plan.ofProgram, map_eq_ok_iff]

/-- A program is rejected as the first of its phrases is that is rejected alone. -/
lemma ofProgram_eq_error_iff_first {program : Program} :
    Plan.ofProgram program = .error rejection ↔
      ∃ phrase, IsFirstWithout (fun own => ∃ plan, Plan.ofProgram ⟨[own]⟩ = .ok plan)
          program.phrases phrase
        ∧ Plan.ofProgram ⟨[phrase]⟩ = .error rejection := by
  rw [ofProgram_eq_error_iff_part, mapM_eq_error_iff]
  refine exists_congr fun phrase => and_congr ?_ ofProgram_singleton_eq_error_iff.symm
  exact isFirstWithout_congr fun own => exists_ofProgram_singleton_iff.symm

/-- **Why a program has no plan.** A program is rejected exactly if one of its phrases is rejected
when it is the only phrase, and then for the reason for which the first such phrase is. This is a
fault of the phrase: the kind that is reported is that of the phrase, and the position that of the
segment that is at fault, or zero when there are no segments. -/
theorem ofProgram_eq_error_iff (program : Program) (rejection : Rejection) :
    (Plan.ofProgram program = .error rejection ↔
      ∃ phrase, IsFirstWithout (fun own => ∃ plan, Plan.ofProgram ⟨[own]⟩ = .ok plan)
          program.phrases phrase
        ∧ Plan.ofProgram ⟨[phrase]⟩ = .error rejection)
    ∧ ((∃ reason, Plan.ofProgram program = .error reason) ↔
      ∃ phrase ∈ program.phrases, ∃ reason, Plan.ofProgram ⟨[phrase]⟩ = .error reason)
    ∧ ∀ phrase, Plan.ofProgram ⟨[phrase]⟩ = .error rejection ↔
      ∃ position fault, phrase.HasFault position fault
        ∧ rejection = .malformedPhrase phrase.kind position fault := by
  refine ⟨ofProgram_eq_error_iff_first, ⟨?_, ?_⟩, fun phrase => ?_⟩
  · rintro ⟨reason, h⟩
    obtain ⟨phrase, hf, he⟩ := ofProgram_eq_error_iff_first.mp h
    exact ⟨phrase, hf.mem, reason, he⟩
  · rintro ⟨phrase, hm, h⟩
    obtain ⟨first, hf⟩ : ∃ first, IsFirstWithout
        (fun own => ∃ plan, Plan.ofProgram ⟨[own]⟩ = .ok plan) program.phrases first :=
      exists_isFirstWithout_iff.mpr ⟨phrase, hm, exists_error_iff.mp h⟩
    obtain ⟨reason, he⟩ := exists_error_iff.mpr hf.not
    exact ⟨reason, ofProgram_eq_error_iff_first.mpr ⟨first, hf, he⟩⟩
  · rw [ofProgram_singleton_eq_error_iff, part_eq_error_iff]
    simp only [eq_comm]

end Reshape
