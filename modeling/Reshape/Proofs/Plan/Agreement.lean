import Reshape.Proofs.Plan.Congruence
import Reshape.Proofs.Plan.Parts
import Reshape.Proofs.Program.Writing

/-!
What a program reads of its input.

* `Program.EndsIn` and `Program.Visits`: the properties that are read of the input and of its items.
* `Program.AgreesOn`: two inputs are related in all of these properties.
* `agree_plan`: then they are related in all that the plan of the program reads.
* `agreesOn_of_corresponds`: related inputs are related in whatever is read of them.
* `run_eq_of_agreesOn`: a program that never takes the whole input has the same output for inputs
  that are the same in all that it reads.
-/

namespace Reshape

/-! ### Properties that are read -/

/-- A path of the program ends in the property. -/
def Program.EndsIn (program : Program) (name : String) : Prop :=
  ∃ segments last, Phrase.path segments ∈ program.phrases ∧ segments.getLast? = some last
    ∧ last.form = .property name

/-- The program does something for every item of its input. -/
def Program.HasMap (program : Program) : Prop :=
  ∃ lead segments, Phrase.map lead segments ∈ program.phrases

/-- A map of the program reads the property of every item. -/
def Program.Visits (program : Program) (name : String) : Prop :=
  ∃ lead segments, Phrase.map lead segments ∈ program.phrases
    ∧ ∃ segment ∈ segments, segment.form = .property name

/-- The inputs are related in every property that the program reads of them and of their items. If
it reads any items, there are as many of them in both. -/
structure Program.AgreesOn (r : Value → Value → Prop) (program : Program) (v w : Value) :
    Prop where
  /-- The properties that a path ends in. -/
  properties (name : String) : program.EndsIn name → r (v.property name) (w.property name)
  /-- The properties that a map reads, item by item. -/
  items : program.HasMap → List.Forall₂
    (fun x y => ∀ name, program.Visits name → r (x.property name) (y.property name)) v.items w.items

variable {program : Program} {r : Value → Value → Prop} {v w : Value}

/-- Every group of a map reads the property of one of its steps. -/
lemma exists_of_mem_groups {steps : List Segment} {group : Group}
    (h : group ∈ Segment.groups steps) : ∃ s ∈ steps, s.form = .property group.property := by
  rw [groups_eq_map] at h
  obtain ⟨piece, hm, rfl⟩ := List.mem_map.mp h
  exact (exists_of_mem_pieces hm).1

/-- The properties that the groups of a map read are visited. -/
lemma visits_of_mem_groups {lead segments : List Segment} {group : Group}
    (hp : Phrase.map lead segments ∈ program.phrases)
    (h : group ∈ Segment.groups segments.tail) : program.Visits group.property := by
  obtain ⟨s, hs, hf⟩ := exists_of_mem_groups h
  exact ⟨lead, segments, hp, s, List.mem_of_mem_tail hs, hf⟩

/-! ### Inputs that agree -/

/-- Inputs that agree in the properties that groups read are related in what the groups make. -/
lemma agree_records {groups : List Group} (h : program.AgreesOn r v w) (hm : program.HasMap)
    (hg : ∀ group ∈ groups, program.Visits group.property) :
    (Selection.records groups).Agree r v w :=
  (h.items hm).imp fun _ _ hxy group hgroup => hxy group.property (hg group hgroup)

lemma agree_map {lead segments : List Segment} (h : program.AgreesOn r v w)
    (hp : Phrase.map lead segments ∈ program.phrases) :
    (mapSelection segments (Segment.groups segments.tail)).Agree r v w := by
  have hm : program.HasMap := ⟨lead, segments, hp⟩
  unfold mapSelection
  split
  · rename_i first name p
    have hv : program.Visits name := ⟨lead, _, hp, ⟨.property name, p⟩, by simp, rfl⟩
    exact (h.items hm).imp fun x y hxy => hxy name hv
  · exact agree_records h hm fun group => visits_of_mem_groups hp

/-- The program takes the whole input only if the inputs are related, and its constants are related
to themselves. -/
structure Program.AgreesBeyond (r : Value → Value → Prop) (program : Program) (v w : Value) :
    Prop where
  /-- The whole input. -/
  input : ∀ s ∈ program.segments, s.form = .input → r v w
  /-- The constants. -/
  constant : ∀ s ∈ program.segments, ∀ key value, s.form = .constant key value →
    r value.toValue value.toValue

lemma mem_segments {phrase : Phrase} {s : Segment} (hp : phrase ∈ program.phrases)
    (hs : s ∈ phrase.segments) : s ∈ program.segments :=
  List.mem_flatMap.mpr ⟨phrase, hp, hs⟩

lemma agree_selection {phrase : Phrase} (ha : phrase.IsArranged) (hp : phrase ∈ program.phrases)
    (hb : program.AgreesBeyond r v w) (h : program.AgreesOn r v w) :
    phrase.selection.Agree r v w := by
  cases ha with
  | @path lead last _ hs =>
      have hm : last ∈ program.segments := mem_segments hp (by simp [Phrase.segments])
      rw [Phrase.selection, List.getLast?_concat]
      obtain ⟨form, p⟩ := last
      rcases hs with hf | ⟨name, hf⟩
      · cases hf
        exact hb.input _ hm rfl
      · cases hf
        exact h.properties name ⟨_, _, hp, List.getLast?_concat, rfl⟩
  | @value lead last _ hc =>
      have hm : last ∈ program.segments := mem_segments hp (by simp [Phrase.segments])
      rw [Phrase.selection, List.getLast?_concat]
      obtain ⟨form, p⟩ := last
      obtain ⟨key, value, hf⟩ := hc
      cases hf
      exact hb.constant _ hm key value rfl
  | map _ _ _ => exact agree_map h hp

/-- Inputs that agree on what a program reads agree on what its plan reads. -/
lemma agree_plan (ha : ∀ phrase ∈ program.phrases, phrase.IsArranged)
    (hb : program.AgreesBeyond r v w) (h : program.AgreesOn r v w) : program.plan.Agree r v w := by
  have hs : ∀ phrase ∈ program.phrases, phrase.selection.Agree r v w :=
    fun phrase hp => agree_selection (ha phrase hp) hp hb h
  obtain ⟨phrases⟩ := program
  match phrases with
  | [] => trivial
  | [phrase] => exact hs phrase List.mem_cons_self
  | first :: second :: rest =>
      simp only [Program.plan]
      have hm : first ∈ first :: second :: rest := List.mem_cons_self
      generalize first :: second :: rest = phrases at h hs hm
      cases hc : phrases.mapM Phrase.columns? with
      | none => exact List.forall_mem_map.mpr hs
      | some maps =>
          obtain rfl := mapM_columns?_eq_some_iff.mp hc
          obtain ⟨segments, -, rfl⟩ := List.mem_map.mp hm
          refine agree_records h ⟨[], segments, hm⟩ fun group hg => ?_
          obtain ⟨own, ho, hg⟩ := List.mem_flatMap.mp hg
          exact visits_of_mem_groups (List.mem_map_of_mem ho) hg

/-- Related inputs are related in whatever is read of them. -/
lemma agreesOn_of_corresponds {R : Number → Number → Prop} (h : Value.Corresponds R v w) :
    program.AgreesOn (Value.Corresponds R) v w where
  properties name _ := h.property name
  items _ := h.items.imp fun _ _ hxy name _ => hxy.property name

/-- Where inputs have no repeated keys, neither has what is read of them. -/
lemma Program.AgreesOn.corresponds {R : Number → Number → Prop}
    (h : program.AgreesOn (Value.Related R) v w) (hv : v.HasDistinctKeys)
    (hw : w.HasDistinctKeys) : program.AgreesOn (Value.Corresponds R) v w where
  properties name hn := ⟨hv.property name, hw.property name, h.properties name hn⟩
  items hm := by
    refine (Value.forall₂_and_iff.mpr ⟨hv.items, hw.items, h.items hm⟩).imp fun x y => ?_
    rintro ⟨hx, hy, hxy⟩ name hn
    exact ⟨hx.property name, hy.property name, hxy name hn⟩

/-! ### Programs that read only properties -/

lemma hasDistinctKeys_toValue (value : Constant) : value.toValue.HasDistinctKeys := by
  cases value <;> trivial

/-- A program of constants reads nothing. -/
lemma agreesOn_of_value (h : ∀ phrase ∈ program.phrases, phrase.kind = .value) (v w : Value) :
    program.AgreesOn r v w where
  properties name := by
    rintro ⟨segments, last, hp, -⟩
    exact absurd (h _ hp) (by simp [Phrase.kind])
  items := by
    rintro ⟨lead, segments, hp⟩
    exact absurd (h _ hp) (by simp [Phrase.kind])

/-- An arranged constant does not take the input. -/
lemma form_ne_input {phrase : Phrase} (ha : phrase.IsArranged) (hk : phrase.kind = .value) :
    ∀ s ∈ phrase.segments, s.form ≠ .input := by
  cases ha with
  | path _ _ => exact absurd hk (by simp [Phrase.kind])
  | @value lead last hn hc =>
      obtain ⟨key, value, hc⟩ := hc
      rw [Phrase.segments, List.forall_mem_append, List.forall_mem_singleton]
      refine ⟨fun s hs => ?_, by simp [hc]⟩
      obtain ⟨text, ht⟩ := hn s hs
      simp [ht]
  | map _ _ _ => exact absurd hk (by simp [Phrase.kind])

/-- **Programs read only what they name.** A program with a plan that never takes the whole input
has the same output for two inputs that are the same in every property that one of its paths ends
in, and, if it has a map, in every property that a map reads, item by item. The same holds up to the
order of entries. A program of constants has the same output for all inputs. -/
theorem run_eq_of_agreesOn {program : Program} {plan : Plan}
    (h : Plan.ofProgram program = .ok plan) :
    ((∀ s ∈ program.segments, s.form ≠ .input) → ∀ v w,
      (program.AgreesOn (· = ·) v w → plan.run v = plan.run w)
      ∧ (v.HasDistinctKeys → w.HasDistinctKeys → program.AgreesOn Value.Similar v w →
        (plan.run v).Similar (plan.run w)))
    ∧ ((∀ phrase ∈ program.phrases, phrase.kind = .value) → ∀ v w, plan.run v = plan.run w) := by
  obtain ⟨ha, rfl⟩ := ofProgram_eq_ok_iff.mp h
  have he : (∀ s ∈ program.segments, s.form ≠ .input) → ∀ {v w},
      program.AgreesOn (· = ·) v w → program.plan.run v = program.plan.run w := by
    intro hi v w hvw
    have hb : program.AgreesBeyond (· = ·) v w :=
      ⟨fun s hs hf => absurd hf (hi s hs), fun _ _ _ _ _ => rfl⟩
    exact Value.isCongruence_eq.run_plan (agree_plan ha hb hvw)
  refine ⟨fun hi v w => ⟨he hi, fun hv hw hvw => ?_⟩, fun hk v w => ?_⟩
  · have hb : program.AgreesBeyond (Value.Corresponds (· = ·)) v w :=
      ⟨fun s hs hf => absurd hf (hi s hs),
        fun _ _ _ value _ => Value.Corresponds.refl (fun _ => rfl) (hasDistinctKeys_toValue value)⟩
    have hc : Value.IsCongruence (Value.Corresponds (· = ·)) :=
      Value.isCongruence_corresponds fun _ _ hmn => congrArg Number.canonical? hmn
    exact (hc.run_plan (agree_plan ha hb (hvw.corresponds hv hw))).related
  · refine he (fun s hs => ?_) (agreesOn_of_value hk v w)
    obtain ⟨phrase, hp, hs⟩ := List.mem_flatMap.mp hs
    exact form_ne_input (ha phrase hp) (hk phrase hp) s hs

/-- A property of every item, a property of the input and a constant, for two arrays whose items
differ in another property. -/
theorem run_eq_of_agreesOn_three :
    Plan.ofProgram ⟨[.map [⟨.name "a", 0⟩] [⟨.each, 2⟩, ⟨.property "x", 4⟩],
        .path [⟨.name "b", 7⟩, ⟨.property "y", 9⟩], .value [⟨.constant "c" (.word "z"), 12⟩]]⟩ =
      .ok (.merge [⟨["a"], .gather "x"⟩, ⟨["b"], .property "y"⟩, ⟨["c"], .constant (.string "z")⟩])
    ∧ (Plan.merge [⟨["a"], .gather "x"⟩, ⟨["b"], .property "y"⟩,
        ⟨["c"], .constant (.string "z")⟩]).run
          (.array [.object [("x", .boolean true), ("y", .null)]]) =
      (Plan.merge [⟨["a"], .gather "x"⟩, ⟨["b"], .property "y"⟩,
        ⟨["c"], .constant (.string "z")⟩]).run
          (.array [.object [("w", .string "y"), ("x", .boolean true)]]) := by
  have h : Plan.ofProgram ⟨[.map [⟨.name "a", 0⟩] [⟨.each, 2⟩, ⟨.property "x", 4⟩],
        .path [⟨.name "b", 7⟩, ⟨.property "y", 9⟩], .value [⟨.constant "c" (.word "z"), 12⟩]]⟩ =
      .ok (.merge [⟨["a"], .gather "x"⟩, ⟨["b"], .property "y"⟩,
        ⟨["c"], .constant (.string "z")⟩]) := rfl
  refine ⟨h, ((run_eq_of_agreesOn h).1 (by decide) _ _).1 ⟨fun name _ => rfl, fun _ => ?_⟩⟩
  refine .cons (fun name hn => ?_) .nil
  obtain rfl : name = "x" := by
    obtain ⟨lead, segments, hp, s, hs, hf⟩ := hn
    simp only [List.mem_cons, Phrase.map.injEq, List.not_mem_nil, reduceCtorEq, or_false] at hp
    obtain ⟨rfl, rfl⟩ := hp
    obtain rfl | rfl := by simpa using hs
    · simp at hf
    · simpa [eq_comm] using hf
  rfl

end Reshape
