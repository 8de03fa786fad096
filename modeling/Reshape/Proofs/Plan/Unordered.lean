import Reshape.Proofs.Json.Unordered
import Reshape.Proofs.Plan.Agreement
import Reshape.Proofs.Plan.Independence
import Reshape.Proofs.Value.Unordered

/-!
Running plans when the entries of an object may come in any order.

Wherever a plan visits entries, it may find them in another order: when values are laid over each
other, and when the representative of a value is looked for.

* `Value.Keeps`: which values are kept without repetitions.
* `Plan.Yields`: what may come out of a plan. `Plan.yields_run`: one such output is the one where
  all entries come in the order of the lists.
* `Plan.Yields.reordered`: all outputs are the same up to the order of entries.
* `yields_of_reordered`: nothing depends on the order of entries, neither of those that are visited
  nor of those of the inputs.
-/

namespace Reshape

namespace Value

/-- The values that mean the same as no earlier one may be `kept`, where the representative of each
value is found with its entries in some order. -/
inductive Keeps : (seen : Std.HashSet Value) → (values kept : List Value) → Prop where
  | nil {seen : Std.HashSet Value} : Keeps seen [] []
  | nothing {seen : Std.HashSet Value} {value other : Value} {rest kept : List Value} :
      Reordered value other → other.canonical? = none → Keeps seen rest kept →
      Keeps seen (value :: rest) (value :: kept)
  | again {seen : Std.HashSet Value} {value other representative : Value}
      {rest kept : List Value} :
      Reordered value other → other.canonical? = some representative →
      seen.contains representative = true → Keeps seen rest kept → Keeps seen (value :: rest) kept
  | first {seen : Std.HashSet Value} {value other representative : Value}
      {rest kept : List Value} :
      Reordered value other → other.canonical? = some representative →
      seen.contains representative = false → Keeps (seen.insert representative) rest kept →
      Keeps seen (value :: rest) (value :: kept)

end Value

/-- What may be taken from an input. -/
inductive Selection.Yields (input : Value) : Selection → Value → Prop where
  | input : Yields input .input input
  | property (name : String) : Yields input (.property name) (input.property name)
  | constant (value : Value) : Yields input (.constant value) value
  | gather {name : String} {kept : List Value} :
      Value.Keeps ∅ (input.items.flatMap fun item => (item.property name).flat) kept →
      Yields input (.gather name) (.array kept)
  | records {groups : List Group} {objects : List Value} :
      List.Forall₂ (fun item object => Value.LaysAll .empty (groups.map (·.read item)) object)
        input.items objects →
      Yields input (.records groups) (.array objects)

/-- What may come out of a part. -/
def Part.Yields (input : Value) (part : Part) (output : Value) : Prop :=
  ∃ inner, part.selection.Yields input inner ∧ output = inner.nest part.path

/-- What may come out of a plan. -/
inductive Plan.Yields (input : Value) : Plan → Value → Prop where
  | empty : Yields input .empty .empty
  | single {part : Part} {output : Value} :
      part.Yields input output → Yields input (.single part) output
  | columns {groups : List Group} {output : Value} :
      (Selection.records groups).Yields input output → Yields input (.columns groups) output
  | merge {parts : List Part} {outputs : List Value} {output : Value} :
      List.Forall₂ (Part.Yields input) parts outputs → Value.LaysAll .empty outputs output →
      Yields input (.merge parts) output

/-! ### The order of the lists is one of the orders -/

namespace Value

variable {values kept : List Value} {seen : Std.HashSet Value}

lemma keeps_distinctFrom (hd : ∀ value ∈ values, value.HasDistinctKeys) :
    Keeps seen values (distinctFrom seen values) := by
  induction values generalizing seen with
  | nil => exact .nil
  | cons value rest ih =>
      obtain ⟨hv, hd⟩ := List.forall_mem_cons.mp hd
      rw [distinctFrom]
      split
      · next hc => exact .nothing (.refl hv) hc (ih hd)
      · next representative hc =>
          split
          · next hs => exact .again (.refl hv) hc hs (ih hd)
          · next hs => exact .first (.refl hv) hc (by simpa using hs) (ih hd)

/-- Whatever the order in which representatives are found, the same values are kept. -/
lemma Keeps.eq_distinctFrom (h : Keeps seen values kept) : kept = distinctFrom seen values := by
  induction h with
  | nil => rfl
  | nothing hr hc _ ih => rw [distinctFrom, hr.canonical?_eq, hc, ih]
  | again hr hc hs _ ih =>
      rw [distinctFrom, hr.canonical?_eq, hc, ih]
      exact (if_pos hs).symm
  | first hr hc hs _ ih =>
      rw [distinctFrom, hr.canonical?_eq, hc, ih]
      exact (if_neg (by simp [hs])).symm

end Value

variable {input : Value}

lemma Selection.yields_run (hd : input.HasDistinctKeys) (selection : Selection) :
    selection.Yields input (selection.run input) := by
  cases selection with
  | input => exact .input
  | property name => exact .property name
  | constant value => exact .constant value
  | gather name =>
      refine .gather (Value.keeps_distinctFrom fun value hv => ?_)
      obtain ⟨item, hi, hv⟩ := List.mem_flatMap.mp hv
      exact ((hd.items item hi).property name).flat value hv
  | records groups =>
      refine .records ?_
      rw [List.forall₂_map_right_iff, List.forall₂_same]
      exact fun item _ => Value.laysAll_foldl .empty _

lemma Part.yields_run (hd : input.HasDistinctKeys) (part : Part) :
    part.Yields input (part.run input) :=
  ⟨_, part.selection.yields_run hd, rfl⟩

lemma Plan.yields_run (hd : input.HasDistinctKeys) (plan : Plan) :
    plan.Yields input (plan.run input) := by
  cases plan with
  | empty => exact .empty
  | single part => exact .single (part.yields_run hd)
  | columns groups => exact .columns (Selection.yields_run hd (.records groups))
  | merge parts =>
      refine .merge ?_ (Value.laysAll_foldl .empty _)
      rw [List.forall₂_map_right_iff, List.forall₂_same]
      exact fun part _ => part.yields_run hd

/-! ### All orders agree -/

variable {output : Value}

/-- Where each member of a list determines what it yields up to a relation, a row of yields is
related to a row of what is determined. -/
lemma forall₂_map_of_yields {α : Type} {yields : α → Value → Prop} {r : Value → Value → Prop}
    {f : α → Value} {xs : List α} {outputs : List Value} (h : List.Forall₂ yields xs outputs)
    (hf : ∀ x ∈ xs, ∀ output, yields x output → r output (f x)) :
    List.Forall₂ r outputs (xs.map f) := by
  induction h with
  | nil => exact .nil
  | cons hy _ ih =>
      obtain ⟨hx, hf⟩ := List.forall_mem_cons.mp hf
      exact .cons (hx _ hy) (ih hf)

lemma reordered_record {item object : Value} {groups : List Group}
    (h : Value.LaysAll .empty (groups.map (·.read item)) object) (hd : item.HasDistinctKeys) :
    Value.Reordered object (Value.record groups item) := by
  refine h.reordered (.refl Value.hasDistinctKeys_empty) ?_
  rw [List.forall₂_same, List.forall_mem_map]
  exact fun group _ => .refl ((hd.property group.property).nest group.path)

lemma Selection.Yields.reordered {selection : Selection} (h : selection.Yields input output)
    (hd : input.HasDistinctKeys) (hs : selection.HasDistinctKeys) :
    Value.Reordered output (selection.run input) := by
  have hr : Value.Reordered (selection.run input) (selection.run input) := .refl (hs.run hd)
  cases h with
  | input => exact hr
  | property name => exact hr
  | constant value => exact hr
  | gather hk =>
      rw [hk.eq_distinctFrom]
      exact hr
  | records hl =>
      exact Value.Corresponds.array_iff.mpr (forall₂_map_of_yields hl fun item hi object ho =>
        reordered_record ho (hd.items item hi))

lemma Part.Yields.reordered {part : Part} (h : part.Yields input output)
    (hd : input.HasDistinctKeys) (hs : part.selection.HasDistinctKeys) :
    Value.Reordered output (part.run input) := by
  obtain ⟨inner, hi, rfl⟩ := h
  exact (hi.reordered hd hs).nest part.path

/-- No constant of the plan repeats a key. -/
def Plan.HasDistinctKeys : Plan → Prop
  | .single part => part.selection.HasDistinctKeys
  | .merge parts => ∀ part ∈ parts, part.selection.HasDistinctKeys
  | _ => True

lemma hasDistinctKeys_plan (program : Program) : program.plan.HasDistinctKeys := by
  obtain ⟨phrases⟩ := program
  match phrases with
  | [] => trivial
  | [phrase] => exact hasDistinctKeys_selection phrase
  | first :: second :: rest =>
      simp only [Program.plan]
      split
      · trivial
      · exact List.forall_mem_map.mpr fun phrase _ => hasDistinctKeys_selection phrase

/-- **Plans hide the order of entries**: whatever the orders in which entries are visited, the
output is the same up to the order of entries. -/
theorem Plan.Yields.reordered {plan : Plan} (h : plan.Yields input output)
    (hd : input.HasDistinctKeys) (hp : plan.HasDistinctKeys) :
    Value.Reordered output (plan.run input) := by
  cases h with
  | empty => exact .refl Value.hasDistinctKeys_empty
  | single h => exact h.reordered hd hp
  | @columns groups _ h =>
      have hs : (Selection.records groups).HasDistinctKeys := trivial
      exact h.reordered hd hs
  | merge hy hl =>
      exact hl.reordered (.refl Value.hasDistinctKeys_empty)
        (forall₂_map_of_yields hy fun part hm output ho => ho.reordered hd (hp part hm))

/-! ### Inputs whose entries come in another order -/

/-- The plan of a program has the same outputs, up to the order of entries, for inputs that are
equal up to the order of entries. -/
lemma reordered_run {program : Program} {v w : Value}
    (ha : ∀ phrase ∈ program.phrases, phrase.IsArranged) (h : v.Reordered w) :
    (program.plan.run v).Reordered (program.plan.run w) := by
  have hc : Value.IsCongruence Value.Reordered :=
    Value.isCongruence_corresponds fun _ _ hmn => congrArg Number.canonical? hmn
  have hb : program.AgreesBeyond Value.Reordered v w :=
    ⟨fun _ _ _ => h, fun _ _ _ value _ => .refl (hasDistinctKeys_toValue value)⟩
  exact hc.run_plan (agree_plan ha hb (agreesOn_of_corresponds h))

/-- **The order of entries never shows.** Let values repeat no key and be equal up to the order of
entries. Whatever the orders in which entries are visited, laying them over each other gives the
same up to the order of entries, and so does every plan of a program. The values have the same
representative and mean the same as the same others. They become documents that are equal up to the
order of entries and have the same texts, just as such documents become such values. None of the
results repeats a key. The order of the lists is one of the orders. -/
theorem yields_of_reordered :
    (∀ a a' b b' : Value, a.Reordered a' → b.Reordered b' →
      Value.Lays a b (a.overlay b)
      ∧ (∀ c c', Value.Lays a b c → Value.Lays a' b' c' → c.Reordered c')
      ∧ a.canonical? = a'.canonical? ∧ a.alike b = a'.alike b')
    ∧ (∀ v w : Value, v.Reordered w → (Json.ofValue v).Reordered (.ofValue w)
      ∧ (Json.ofValue v).compact = (Json.ofValue w).compact
      ∧ (Json.ofValue v).pretty = (Json.ofValue w).pretty)
    ∧ (∀ j k : Json, j.Reordered k → j.toValue.Reordered k.toValue)
    ∧ ∀ program plan, Plan.ofProgram program = .ok plan → ∀ v w : Value, v.Reordered w →
      plan.Yields v (plan.run v)
      ∧ ∀ x y, plan.Yields v x → plan.Yields w y → x.Reordered y := by
  refine ⟨?_, ?_, fun j k => Json.reordered_toValue, ?_⟩
  · intro a a' b b' ha hb
    refine ⟨Value.lays_overlay a b, ?_, ha.canonical?_eq, ?_⟩
    · intro c c' hc hc'
      have hl := hc.reordered ha.left hb.left
      have hl' := hc'.reordered ha.right hb.right
      exact hl.trans ((ha.overlay hb).trans hl'.symm)
    · rw [Value.alike, Value.alike, ha.canonical?_eq, hb.canonical?_eq]
  · intro v w h
    have hj := Json.reordered_ofValue h
    exact ⟨hj, Json.compact_eq_of_reordered hj, Json.pretty_eq_of_reordered hj⟩
  · intro program plan hp v w h
    obtain ⟨ha, rfl⟩ := ofProgram_eq_ok_iff.mp hp
    have hd : program.plan.HasDistinctKeys := hasDistinctKeys_plan program
    refine ⟨program.plan.yields_run h.left, fun x y hx hy => ?_⟩
    have hx := hx.reordered h.left hd
    have hy := hy.reordered h.right hd
    exact hx.trans ((reordered_run ha h).trans hy.symm)

/-- Two keys are put into an empty object in either order; the objects are written, read, and
gathered from next to a constant. -/
theorem yields_of_reordered_two :
    (Value.object [("x", .null), ("y", .boolean true)]).Reordered
      (.object [("y", .boolean true), ("x", .null)])
    ∧ (Json.ofValue (.object [("x", .null), ("y", .boolean true)])).compact =
      (Json.ofValue (.object [("y", .boolean true), ("x", .null)])).compact
    ∧ (Json.object [("x", .null), ("y", .boolean true)]).toValue.Reordered
      (Json.object [("y", .boolean true), ("x", .null)]).toValue
    ∧ ((Plan.merge [⟨["a"], .gather "x"⟩, ⟨["b"], .constant (.string "z")⟩]).run
        (.array [.object [("x", .null), ("y", .boolean true)]])).Reordered
      ((Plan.merge [⟨["a"], .gather "x"⟩, ⟨["b"], .constant (.string "z")⟩]).run
        (.array [.object [("y", .boolean true), ("x", .null)]])) := by
  have he : Value.empty.Reordered .empty := .refl Value.hasDistinctKeys_empty
  have hd : (Value.object [("x", .null), ("y", .boolean true)]).HasDistinctKeys := by
    simp [Value.HasDistinctKeys, Value.EntriesHaveDistinctKeys]
  have h : (Value.object [("x", .null), ("y", .boolean true)]).Reordered
      (.object [("y", .boolean true), ("x", .null)]) := by
    refine (yields_of_reordered.1 _ _ _ _ he (.refl hd)).2.1 _ _ ?_ ?_
    · exact .object (.refl _) (.fresh rfl (.fresh rfl .nil))
    · exact .object (.swap _ _ _) (.fresh rfl (.fresh rfl .nil))
  have hj := (yields_of_reordered.2.1 _ _ h).1
  have hp : Plan.ofProgram ⟨[.map [⟨.name "a", 0⟩] [⟨.each, 2⟩, ⟨.property "x", 4⟩],
      .value [⟨.constant "b" (.word "z"), 6⟩]]⟩ =
      .ok (.merge [⟨["a"], .gather "x"⟩, ⟨["b"], .constant (.string "z")⟩]) := rfl
  have hw := yields_of_reordered.2.2.2 _ _ hp _ _ (Value.Corresponds.array_iff.mpr (.cons h .nil))
  have hr := yields_of_reordered.2.2.2 _ _ hp _ _
    (Value.Corresponds.array_iff.mpr (.cons h.symm .nil))
  exact ⟨h, (yields_of_reordered.2.1 _ _ h).2.1, yields_of_reordered.2.2.1 _ _ hj,
    hw.2 _ _ hw.1 hr.1⟩

end Reshape
