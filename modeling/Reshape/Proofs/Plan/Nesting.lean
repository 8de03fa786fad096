import Reshape.Proofs.Plan.Composition
import Reshape.Proofs.Plan.Independence

/-!
A name in front of every phrase of a program.

* `overlayAll_map_under`: values under the same key are laid over each other under that key.
* `Program.MakesColumns`: the program is several maps without names in front of them.
* `run_plan_eq_run_merge`: all other programs lay their phrases over each other.
* `Program.prepend`: a program with one more name in front of every phrase.
* `run_prepend`: its output is the output of the program under that name.
-/

namespace Reshape

/-! ### Values under one key -/

namespace Value

lemma overlay_under (lower upper : Value) (key : String) :
    (under key lower).overlay (under key upper) = under key (lower.overlay upper) := by
  rw [under, under, overlay, overlayEntries, overlayEntries, Entries.lookup_cons, if_pos rfl,
    Entries.put, if_pos rfl]
  rfl

lemma foldl_overlay_map_under (lower : Value) (values : List Value) (key : String) :
    (values.map (under key)).foldl overlay (under key lower) =
      under key (values.foldl overlay lower) := by
  induction values generalizing lower with
  | nil => rfl
  | cons value values ih => rw [List.map_cons, List.foldl_cons, overlay_under, ih, List.foldl_cons]

/-- Values under the same key are laid over each other under that key, if there are any. -/
lemma overlayAll_map_under {values : List Value} (hne : values ≠ [])
    (hd : ∀ value ∈ values, value.HasDistinctKeys) (key : String) :
    overlayAll (values.map (under key)) = under key (overlayAll values) := by
  cases values with
  | nil => exact absurd rfl hne
  | cons value values =>
      have hv : value.HasDistinctKeys := hd value List.mem_cons_self
      -- the first value replaces the empty object, whatever it is
      rw [overlayAll, overlayAll, List.map_cons, List.foldl_cons, List.foldl_cons,
        overlay_empty (hv.under key), overlay_empty hv, foldl_overlay_map_under]

end Value

/-! ### Programs that lay their phrases over each other -/

/-- The program is several maps without names in front of them, which make columns together. -/
def Program.MakesColumns (program : Program) : Prop :=
  2 ≤ program.phrases.length ∧ ∀ phrase ∈ program.phrases, ∃ segments, phrase = .map [] segments

/-- A program that makes no columns lays its phrases over each other, even if there is only one. -/
lemma run_plan_eq_run_merge {program : Program} {input : Value} (hc : ¬ program.MakesColumns)
    (hd : input.HasDistinctKeys) :
    program.plan.run input = (Plan.merge (program.phrases.map Phrase.placed)).run input := by
  obtain ⟨phrases⟩ := program
  match phrases with
  | [] => rfl
  | [phrase] => exact run_single_eq_run_merge (hasDistinctKeys_selection phrase) hd
  | first :: second :: rest =>
      have hl : 2 ≤ (first :: second :: rest).length := by simp
      simp only [Program.plan]
      generalize first :: second :: rest = phrases at hc hl
      cases hm : phrases.mapM Phrase.columns? with
      | none => rfl
      | some maps =>
          obtain rfl := mapM_columns?_eq_some_iff.mp hm
          refine absurd ⟨hl, List.forall_mem_map.mpr fun segments _ => ?_⟩ hc
          exact ⟨segments, rfl⟩

/-! ### One more name -/

/-- A part under one more key. -/
def Part.under (key : String) (part : Part) : Part :=
  ⟨key :: part.path, part.selection⟩

/-- Parts under the same key are laid over each other under that key, if there are any. -/
lemma run_merge_map_under {parts : List Part} {input : Value} (hne : parts ≠ [])
    (hs : ∀ part ∈ parts, part.selection.HasDistinctKeys) (hd : input.HasDistinctKeys)
    (key : String) :
    (Plan.merge (parts.map (Part.under key))).run input =
      .under key ((Plan.merge parts).run input) := by
  have hv : ∀ value ∈ parts.map (·.run input), value.HasDistinctKeys :=
    List.forall_mem_map.mpr fun part hp => ((hs part hp).run hd).nest part.path
  have hn : parts.map (·.run input) ≠ [] := fun h => hne (List.map_eq_nil_iff.mp h)
  rw [Plan.run, Plan.run, ← Value.overlayAll_map_under hn hv, List.map_map, List.map_map]
  rfl

/-- The part of a phrase with a name in front of it is the part of the phrase under that name. -/
lemma placed_prepend (phrase : Phrase) (name : String) (p : Nat) :
    (phrase.prepend [⟨.name name, p⟩]).placed = phrase.placed.under name := by
  cases phrase with
  | path segments => cases segments <;> rfl
  | value segments => cases segments <;> rfl
  | map lead segments => rfl

lemma isArranged_prepend {phrase : Phrase} (h : phrase.IsArranged) (name : String) (p : Nat) :
    (phrase.prepend [⟨.name name, p⟩]).IsArranged := by
  have hn : (⟨.name name, p⟩ : Segment).IsName := ⟨name, rfl⟩
  cases h with
  | path hl hs => exact .path (List.forall_mem_cons.mpr ⟨hn, hl⟩) hs
  | value hl hc => exact .value (List.forall_mem_cons.mpr ⟨hn, hl⟩) hc
  | map hl hf hs => exact .map (List.forall_mem_cons.mpr ⟨hn, hl⟩) hf hs

/-- A program with one more name in front of every phrase. The offset of the name in front of the
`i`-th phrase is `place i`. -/
def Program.prepend (name : String) (place : Nat → Nat) (program : Program) : Program :=
  ⟨program.phrases.mapIdx fun i phrase => phrase.prepend [⟨.name name, place i⟩]⟩

section Prepend

variable {program : Program} (name : String) (place : Nat → Nat)

lemma exists_of_mem_prepend {phrase : Phrase}
    (h : phrase ∈ (program.prepend name place).phrases) :
    ∃ own ∈ program.phrases, ∃ p, phrase = own.prepend [⟨.name name, p⟩] := by
  obtain ⟨i, hi, rfl⟩ := List.mem_mapIdx.mp h
  exact ⟨_, List.getElem_mem hi, place i, rfl⟩

lemma map_placed_prepend :
    (program.prepend name place).phrases.map Phrase.placed =
      (program.phrases.map Phrase.placed).map (Part.under name) := by
  refine List.ext_getElem? fun i => ?_
  simp only [Program.prepend, List.getElem?_map, List.getElem?_mapIdx, Option.map_map]
  refine congrArg (fun f => Option.map f program.phrases[i]?) (funext fun phrase => ?_)
  exact placed_prepend phrase name (place i)

/-- A phrase with a name in front of it makes no column. -/
lemma not_makesColumns_prepend (hne : program.phrases ≠ []) :
    ¬ (program.prepend name place).MakesColumns := by
  rintro ⟨-, hm⟩
  obtain ⟨phrase, rest, hp⟩ := List.exists_cons_of_ne_nil hne
  obtain ⟨segments, hs⟩ := hm (phrase.prepend [⟨.name name, place 0⟩])
    (by simp [Program.prepend, hp])
  cases phrase <;> simp [Phrase.prepend] at hs

end Prepend

/-- **A name in front of every phrase.** A program of at least one phrase that makes no columns may
be given one more name in front of every phrase, wherever these names stand. It has a plan again,
and for every input without repeated keys its output is the output of the program under that
name. -/
theorem run_prepend {program : Program} {plan : Plan} (h : Plan.ofProgram program = .ok plan)
    (hne : program.phrases ≠ []) (hc : ¬ program.MakesColumns) (name : String)
    (place : Nat → Nat) :
    ∃ other, Plan.ofProgram (program.prepend name place) = .ok other
      ∧ ∀ input, input.HasDistinctKeys → other.run input = .under name (plan.run input) := by
  obtain ⟨ha, rfl⟩ := ofProgram_eq_ok_iff.mp h
  refine ⟨_, ofProgram_eq_ok_iff.mpr ⟨fun phrase hp => ?_, rfl⟩, fun input hd => ?_⟩
  · obtain ⟨own, ho, p, rfl⟩ := exists_of_mem_prepend name place hp
    exact isArranged_prepend (ha own ho) name p
  · have hs : ∀ part ∈ program.phrases.map Phrase.placed, part.selection.HasDistinctKeys :=
      List.forall_mem_map.mpr fun phrase _ => hasDistinctKeys_selection phrase
    have hn : program.phrases.map Phrase.placed ≠ [] := fun h => hne (List.map_eq_nil_iff.mp h)
    calc (program.prepend name place).plan.run input
        = (Plan.merge ((program.phrases.map Phrase.placed).map (Part.under name))).run input := by
          rw [run_plan_eq_run_merge (not_makesColumns_prepend name place hne) hd,
            map_placed_prepend]
      _ = .under name ((Plan.merge (program.phrases.map Phrase.placed)).run input) :=
          run_merge_map_under hn hs hd name
      _ = .under name (program.plan.run input) := by rw [run_plan_eq_run_merge hc hd]

/-- The input and a constant: the object of the constant replaces an input that is no object, also
under one more name. -/
theorem run_prepend_replacing :
    Plan.ofProgram ⟨[.path [⟨.input, 0⟩], .value [⟨.constant "b" (.word "x"), 2⟩]]⟩ =
      .ok (.merge [⟨[], .input⟩, ⟨["b"], .constant (.string "x")⟩])
    ∧ ¬ Program.MakesColumns ⟨[.path [⟨.input, 0⟩], .value [⟨.constant "b" (.word "x"), 2⟩]]⟩
    ∧ (Plan.merge [⟨["a"], .input⟩, ⟨["a", "b"], .constant (.string "x")⟩]).run (.boolean true) =
      .under "a" (.object [("b", .string "x")]) := by
  have hp : Plan.ofProgram ⟨[.path [⟨.input, 0⟩], .value [⟨.constant "b" (.word "x"), 2⟩]]⟩ =
      .ok (.merge [⟨[], .input⟩, ⟨["b"], .constant (.string "x")⟩]) := rfl
  have hc : ¬ Program.MakesColumns
      ⟨[.path [⟨.input, 0⟩], .value [⟨.constant "b" (.word "x"), 2⟩]]⟩ := by
    rintro ⟨-, hm⟩
    obtain ⟨segments, hs⟩ := hm _ List.mem_cons_self
    exact absurd hs (by simp)
  obtain ⟨other, ho, hr⟩ := run_prepend hp (by simp) hc "a" fun _ => 0
  obtain rfl : .merge [⟨["a"], .input⟩, ⟨["a", "b"], .constant (.string "x")⟩] = other :=
    Except.ok.inj ho
  exact ⟨hp, hc, hr (.boolean true) trivial⟩

end Reshape
