import Reshape.Proofs.Json.RoundTrip
import Reshape.Proofs.Plan.Agreement
import Reshape.Proofs.Plan.Closed

/-!
What the outputs of programs are made of.

* `Program.HasLiteral`: the constants that a program writes.
* `satisfies_plan`: the constants and the keys of a plan are those of its program, and the implicit
  key.
* `within_run`: every scalar and every key in an output comes from the input or the program.
-/

namespace Reshape

/-- The value is the constant at the end of a phrase of the program. -/
def Program.HasLiteral (program : Program) (value : Value) : Prop :=
  ∃ segments last key constant, Phrase.value segments ∈ program.phrases
    ∧ segments.getLast? = some last ∧ last.form = .constant key constant
    ∧ value = constant.toValue

variable {program : Program} {P : Value → Prop} {K : String → Prop}

/-! ### Keys -/

/-- Every key of a group is written in the steps of its map, or is the implicit one. -/
lemma exists_of_mem_path {steps : List Segment} {group : Group} {key : String}
    (h : group ∈ Segment.groups steps) (hk : key ∈ group.path) :
    (∃ s ∈ steps, s.level? = some key) ∨ key = implicitKey := by
  rw [groups_eq_map] at h
  obtain ⟨⟨names, name⟩, hm, rfl⟩ := List.mem_map.mp h
  by_cases hn : names = []
  · simp only [Group.ofPiece, if_pos hn] at hk
    exact .inr (List.mem_singleton.mp hk)
  · simp only [Group.ofPiece, if_neg hn] at hk
    obtain ⟨s, hs, hf⟩ := (exists_of_mem_pieces hm).2 key hk
    exact .inl ⟨s, hs, by rw [Segment.level?, hf]⟩

/-- Every key that a phrase puts around what it contributes is written in the phrase. -/
lemma exists_of_mem_outputPath {phrase : Phrase} {key : String} (h : key ∈ phrase.outputPath) :
    ∃ s ∈ phrase.segments, s.level? = some key := by
  cases phrase with
  | path segments => exact List.mem_filterMap.mp h
  | value segments => exact List.mem_filterMap.mp h
  | map lead segments =>
      obtain ⟨s, hs, hl⟩ := List.mem_filterMap.mp h
      exact ⟨s, List.mem_append_left segments hs, hl⟩

/-- All keys that the program writes satisfy `K`, and so does the implicit one. -/
structure Program.HasKeysIn (K : String → Prop) (program : Program) : Prop where
  /-- The keys that are written. -/
  written {s : Segment} {key : String} : s ∈ program.segments → s.level? = some key → K key
  /-- The key that is not written. -/
  implicit : K implicitKey

/-- The keys of the groups of a map are among those of its program. -/
lemma Program.HasKeysIn.groups (hk : program.HasKeysIn K) {lead segments : List Segment}
    (hp : Phrase.map lead segments ∈ program.phrases) :
    ∀ group ∈ Segment.groups segments.tail, ∀ key ∈ group.path, K key := by
  intro group hg key hm
  rcases exists_of_mem_path hg hm with ⟨s, hs, hl⟩ | rfl
  · have hs : s ∈ (Phrase.map lead segments).segments :=
      List.mem_append_right lead (List.mem_of_mem_tail hs)
    exact hk.written (mem_segments hp hs) hl
  · exact hk.implicit

/-! ### Plans -/

lemma satisfies_selection {phrase : Phrase} (ha : phrase.IsArranged)
    (hp : phrase ∈ program.phrases) (hc : ∀ value, program.HasLiteral value → P value)
    (hk : program.HasKeysIn K) : phrase.selection.Satisfies P K := by
  cases ha with
  | @path lead last _ hs =>
      rw [Phrase.selection, List.getLast?_concat]
      obtain ⟨form, p⟩ := last
      rcases hs with hf | ⟨name, hf⟩
      · cases hf
        trivial
      · cases hf
        trivial
  | @value lead last _ hs =>
      rw [Phrase.selection, List.getLast?_concat]
      obtain ⟨form, p⟩ := last
      obtain ⟨key, value, hf⟩ := hs
      cases hf
      exact hc value.toValue ⟨_, _, key, value, hp, List.getLast?_concat, rfl, rfl⟩
  | @map lead first steps _ _ _ =>
      have hg := hk.groups hp
      rw [Phrase.selection]
      unfold mapSelection
      split
      · trivial
      · exact hg

lemma satisfies_placed {phrase : Phrase} (ha : phrase.IsArranged)
    (hp : phrase ∈ program.phrases) (hc : ∀ value, program.HasLiteral value → P value)
    (hk : program.HasKeysIn K) : phrase.placed.Satisfies P K := by
  refine ⟨satisfies_selection ha hp hc hk, fun key hm => ?_⟩
  obtain ⟨s, hs, hl⟩ := exists_of_mem_outputPath hm
  exact hk.written (mem_segments hp hs) hl

/-- The constants and the keys of the plan are those that the program writes, and the implicit
key. -/
lemma satisfies_plan (ha : ∀ phrase ∈ program.phrases, phrase.IsArranged)
    (hc : ∀ value, program.HasLiteral value → P value) (hk : program.HasKeysIn K) :
    program.plan.Satisfies P K := by
  have hs : ∀ phrase ∈ program.phrases, phrase.placed.Satisfies P K :=
    fun phrase hp => satisfies_placed (ha phrase hp) hp hc hk
  obtain ⟨phrases⟩ := program
  match phrases with
  | [] => trivial
  | [phrase] => exact hs phrase List.mem_cons_self
  | first :: second :: rest =>
      simp only [Program.plan]
      generalize first :: second :: rest = phrases at hk hs
      cases hm : phrases.mapM Phrase.columns? with
      | none => exact List.forall_mem_map.mpr hs
      | some maps =>
          obtain rfl := mapM_columns?_eq_some_iff.mp hm
          intro group hg
          obtain ⟨own, ho, hg⟩ := List.mem_flatMap.mp hg
          have hp : Phrase.map [] own ∈ maps.map (Phrase.map []) := List.mem_map_of_mem ho
          exact hk.groups hp group hg

/-! ### Outputs -/

lemma Value.isClosed_madeOf {S : Value → Prop} : Value.IsClosed (Value.MadeOf S K) K where
  property name h := h.property name
  items h := h.items
  array h := madeOf_array.mpr h
  empty := madeOf_empty
  under hk h := h.under hk
  overlay hl hu := hl.overlay hu

/-- A constant is a scalar, and so made of itself. -/
lemma isScalar_toValue (value : Constant) : value.toValue.IsScalar := by
  cases value <;> trivial

/-- The output of a program is made of the scalars and the keys of the input and of the program. -/
lemma madeOf_run {S : Value → Prop} {input : Value}
    (ha : ∀ phrase ∈ program.phrases, phrase.IsArranged)
    (hc : ∀ value, program.HasLiteral value → S value) (hk : program.HasKeysIn K)
    (hi : input.MadeOf S K) : (program.plan.run input).MadeOf S K := by
  refine Value.isClosed_madeOf.run_plan (satisfies_plan ha (fun value hv => ?_) hk) hi
  have hs := hc value hv
  obtain ⟨-, -, -, constant, -, -, -, rfl⟩ := hv
  exact Value.madeOf_of_isScalar (isScalar_toValue constant) hs

/-- **Programs invent nothing.** Every truth value, number or text in the output of a program occurs
in the input, of the same type, or is a constant that the program writes. Every key in the output is
a key in the input, is written in the program, or is the implicit one. So if all floats of the input
and of the program are finite, then so are those of the output, and nothing of it is lost when it
becomes a document. -/
theorem within_run {program : Program} {plan : Plan} (h : Plan.ofProgram program = .ok plan)
    (input : Value) :
    (∀ scalar, scalar.IsScalar → scalar.Within (plan.run input) →
      scalar.Within input ∨ program.HasLiteral scalar)
    ∧ (∀ key, (plan.run input).HasKey key →
      input.HasKey key ∨ (∃ s ∈ program.segments, s.level? = some key) ∨ key = "id")
    ∧ ((∀ x, (Value.number (.float x)).Within input → x.isFinite) →
      (∀ x, program.HasLiteral (.number (.float x)) → x.isFinite) →
      (∀ x, (Value.number (.float x)).Within (plan.run input) → x.isFinite)
      ∧ (Json.ofValue (plan.run input)).toValue = plan.run input) := by
  obtain ⟨ha, rfl⟩ := ofProgram_eq_ok_iff.mp h
  have hm : (program.plan.run input).MadeOf
      (fun scalar => scalar.Within input ∨ program.HasLiteral scalar)
      (fun key => input.HasKey key ∨ (∃ s ∈ program.segments, s.level? = some key) ∨ key = "id") :=
    madeOf_run ha (fun _ hl => .inr hl)
      ⟨fun hs hl => .inr (.inl ⟨_, hs, hl⟩), .inr (.inr rfl)⟩
      ⟨fun _ hw => .inl hw, fun hk => .inl hk⟩
  refine ⟨fun _ => hm.scalar, fun _ => hm.key, fun hi hl => ?_⟩
  have hf : ∀ x, (Value.number (.float x)).Within (program.plan.run input) → x.isFinite := by
    intro x hw
    have hs : (Value.number (.float x)).IsScalar := trivial
    exact (hm.scalar hs hw).elim (hi x) (hl x)
  exact ⟨hf, Json.toValue_ofValue hf⟩

/-- A property of every item next to a constant, both of them floats. -/
theorem within_run_zeros :
    Plan.ofProgram ⟨[.map [⟨.name "a", 0⟩] [⟨.each, 2⟩, ⟨.property "x", 4⟩],
        .value [⟨.constant "b" (.number (.float (.zero true))), 7⟩]]⟩ =
      .ok (.merge [⟨["a"], .gather "x"⟩, ⟨["b"], .constant (.number (.float (.zero true)))⟩])
    ∧ (∀ x, (Value.number (.float x)).Within
      (.array [.under "x" (.number (.float (.zero false)))]) → x.isFinite)
    ∧ (∀ x, Program.HasLiteral ⟨[.map [⟨.name "a", 0⟩] [⟨.each, 2⟩, ⟨.property "x", 4⟩],
        .value [⟨.constant "b" (.number (.float (.zero true))), 7⟩]]⟩ (.number (.float x)) →
      x.isFinite)
    ∧ (Json.ofValue ((Plan.merge [⟨["a"], .gather "x"⟩,
          ⟨["b"], .constant (.number (.float (.zero true)))⟩]).run
        (.array [.under "x" (.number (.float (.zero false)))]))).toValue =
      (Plan.merge [⟨["a"], .gather "x"⟩,
          ⟨["b"], .constant (.number (.float (.zero true)))⟩]).run
        (.array [.under "x" (.number (.float (.zero false)))]) := by
  have h : Plan.ofProgram ⟨[.map [⟨.name "a", 0⟩] [⟨.each, 2⟩, ⟨.property "x", 4⟩],
        .value [⟨.constant "b" (.number (.float (.zero true))), 7⟩]]⟩ =
      .ok (.merge [⟨["a"], .gather "x"⟩,
        ⟨["b"], .constant (.number (.float (.zero true)))⟩]) := rfl
  have hi : ∀ x, (Value.number (.float x)).Within
      (.array [.under "x" (.number (.float (.zero false)))]) → x.isFinite := by
    intro x hw
    have hz : (Value.number (.float (.zero false))).IsScalar := trivial
    have hm : (Value.array [.under "x" (.number (.float (.zero false)))]).MadeOf
        (· = .number (.float (.zero false))) (fun _ => True) := by
      refine Value.madeOf_array.mpr (List.forall_mem_singleton.mpr (Value.MadeOf.under ?_ trivial))
      exact Value.madeOf_of_isScalar hz rfl
    have hx : (Value.number (.float x)).IsScalar := trivial
    have he : Value.number (.float x) = .number (.float (.zero false)) := hm.scalar hx hw
    cases he
    rfl
  have hl : ∀ x, Program.HasLiteral ⟨[.map [⟨.name "a", 0⟩] [⟨.each, 2⟩, ⟨.property "x", 4⟩],
      .value [⟨.constant "b" (.number (.float (.zero true))), 7⟩]]⟩ (.number (.float x)) →
      x.isFinite := by
    rintro x ⟨segments, last, key, constant, hp, hlast, hf, hv⟩
    obtain rfl : segments = [⟨.constant "b" (.number (.float (.zero true))), 7⟩] := by
      simpa using hp
    cases hlast
    cases hf
    cases hv
    rfl
  exact ⟨h, hi, hl, ((within_run h _).2.2 hi hl).2⟩

end Reshape
