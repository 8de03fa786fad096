import Reshape.Proofs.Program.Writing

/-!
A written program is read as that program.

* `Placement`: tokens hold given segments, and where.
* `exists_spellsPhrase_signs` and `exists_spellsPhrases_signs`: tokens of the kinds that are written
  spell the phrase or the phrases, wherever they stand.
* `ofText_writing`: the text of a program is read as the program, each segment at the offset of its
  first token.
-/

namespace Reshape

/-! ### Tokens that fit -/

namespace Sign

lemma fit_nil_iff {tokens : List Token} : Fit [] tokens ↔ tokens = [] := by
  rw [Fit, List.map_nil, List.map_eq_nil_iff]

lemma fit_cons_iff {sign : Sign} {signs : List Sign} {tokens : List Token} :
    Fit (sign :: signs) tokens ↔ ∃ p rest, tokens = ⟨sign.kind, p⟩ :: rest ∧ Fit signs rest := by
  rw [Fit, List.map_cons, List.map_eq_cons_iff]
  refine ⟨?_, ?_⟩
  · rintro ⟨⟨kind, p⟩, rest, rfl, rfl, hr⟩
    exact ⟨p, rest, rfl, hr⟩
  · rintro ⟨p, rest, rfl, hr⟩
    exact ⟨⟨sign.kind, p⟩, rest, rfl, rfl, hr⟩

lemma fit_append_iff {signs more : List Sign} {tokens : List Token} :
    Fit (signs ++ more) tokens ↔
      ∃ front back, tokens = front ++ back ∧ Fit signs front ∧ Fit more back := by
  rw [Fit, List.map_append, List.map_eq_append_iff]
  rfl

lemma Fit.length_eq {signs : List Sign} {tokens : List Token} (h : Fit signs tokens) :
    signs.length = tokens.length := by
  simpa using (congrArg List.length h).symm

lemma openings_append {signs more : List Sign} {front back : List Token} (h : Fit signs front) :
    openings (signs ++ more) (front ++ back) = openings signs front ++ openings more back := by
  rw [openings, List.zip_append h.length_eq, List.filter_append, List.map_append]
  rfl

end Sign

open Sign (Fit openings fit_nil_iff fit_cons_iff fit_append_iff openings_append)

/-- The tokens hold the segments, and these are read with the offsets of the tokens at which they
begin. -/
structure Placement (signs : List Sign) (tokens : List Token) (segments read : List Segment) :
    Prop where
  /-- The tokens are those that are written. -/
  fit : Fit signs tokens
  /-- The segments are the same. -/
  unplaced_eq : read.map Segment.unplaced = segments.map Segment.unplaced
  /-- Each one stands where it begins. -/
  position_eq : read.map Segment.position = openings signs tokens

namespace Placement

variable {signs more : List Sign} {tokens front back : List Token}
  {segments others read also : List Segment}

lemma nil : Placement [] [] [] [] :=
  ⟨rfl, rfl, rfl⟩

lemma append (h : Placement signs front segments read) (hm : Placement more back others also) :
    Placement (signs ++ more) (front ++ back) (segments ++ others) (read ++ also) := by
  refine ⟨fit_append_iff.mpr ⟨front, back, rfl, h.fit, hm.fit⟩, ?_, ?_⟩
  · rw [List.map_append, List.map_append, h.unplaced_eq, hm.unplaced_eq]
  · rw [List.map_append, openings_append h.fit, h.position_eq, hm.position_eq]

/-- A token at which no segment begins. -/
lemma inner (h : Placement signs tokens segments read) (kind : Token.Kind) (p : Nat) :
    Placement (⟨kind, false⟩ :: signs) (⟨kind, p⟩ :: tokens) segments read :=
  ⟨fit_cons_iff.mpr ⟨p, tokens, rfl, h.fit⟩, h.unplaced_eq, h.position_eq⟩

/-- A token at which a segment begins. -/
lemma opening (h : Placement signs tokens segments read) (kind : Token.Kind) (p q : Nat)
    (form : Segment.Form) :
    Placement (⟨kind, true⟩ :: signs) (⟨kind, p⟩ :: tokens) (⟨form, q⟩ :: segments)
      (⟨form, p⟩ :: read) := by
  refine ⟨fit_cons_iff.mpr ⟨p, tokens, rfl, h.fit⟩, ?_, ?_⟩
  · rw [List.map_cons, List.map_cons, h.unplaced_eq]
    rfl
  · rw [List.map_cons, h.position_eq]
    rfl

end Placement

/-! ### Phrases -/

variable {tokens : List Token}

/-- Written names, each with a point behind it. -/
lemma exists_spellsLead_signs {lead : List Segment} (hn : ∀ s ∈ lead, s.IsName)
    (hf : Fit (lead.flatMap fun s => s.signs ++ [Sign.point]) tokens) :
    ∃ read, SpellsLead tokens read
      ∧ Placement (lead.flatMap fun s => s.signs ++ [Sign.point]) tokens lead read := by
  induction lead generalizing tokens with
  | nil =>
      obtain rfl := fit_nil_iff.mp hf
      exact ⟨[], .nil, .nil⟩
  | cons first rest ih =>
      obtain ⟨⟨text, ht⟩, hr⟩ := List.forall_mem_cons.mp hn
      obtain ⟨form, r⟩ := first
      cases ht
      obtain ⟨p, after, rfl, ha⟩ := fit_cons_iff.mp hf
      obtain ⟨q, tokens, rfl, hs⟩ := fit_cons_iff.mp ha
      obtain ⟨read, hl, hp⟩ := ih hr hs
      exact ⟨_, hl.cons text p q, (hp.inner .dot q).opening (.identifier text) p r (.name text)⟩

/-- A written step, which may follow the map operator with a point or without one. -/
lemma exists_spellsSteps_cons {step : Segment} (hs : step.IsStep) (hf : Fit step.signs tokens) :
    ∃ read, Placement step.signs tokens [step] [read]
      ∧ ∀ more rest, SpellsSteps more rest →
        SpellsSteps (tokens ++ more) (read :: rest)
          ∧ ∀ q, SpellsSteps (⟨.dot, q⟩ :: (tokens ++ more)) (read :: rest) := by
  obtain ⟨form, r⟩ := step
  rcases hs with ⟨text, ht⟩ | ⟨text, ht⟩
  · cases ht
    obtain ⟨p, after, rfl, ha⟩ := fit_cons_iff.mp hf
    obtain rfl := fit_nil_iff.mp ha
    refine ⟨⟨.name text, p⟩, Placement.nil.opening (.identifier text) p r (.name text), ?_⟩
    exact fun more rest hm => ⟨hm.name text p, fun q => hm.dotName text p q⟩
  · cases ht
    obtain ⟨p, after, rfl, ha⟩ := fit_cons_iff.mp hf
    obtain ⟨q, none, rfl, hb⟩ := fit_cons_iff.mp ha
    obtain rfl := fit_nil_iff.mp hb
    refine ⟨⟨.property text, p⟩,
      (Placement.nil.inner (.identifier text) q).opening .hash p r (.property text), ?_⟩
    exact fun more rest hm => ⟨hm.property text p q, fun r => hm.dotProperty text p q r⟩

/-- Written steps, each with a point in front of it. -/
lemma exists_spellsSteps_points {rest : List Segment} (hr : ∀ s ∈ rest, s.IsStep)
    (hf : Fit (rest.flatMap fun s => Sign.point :: s.signs) tokens) :
    ∃ read, SpellsSteps tokens read
      ∧ Placement (rest.flatMap fun s => Sign.point :: s.signs) tokens rest read := by
  induction rest generalizing tokens with
  | nil =>
      obtain rfl := fit_nil_iff.mp hf
      exact ⟨[], .nil, .nil⟩
  | cons first rest ih =>
      obtain ⟨hs, hr⟩ := List.forall_mem_cons.mp hr
      obtain ⟨q, after, rfl, ha⟩ := fit_cons_iff.mp hf
      obtain ⟨front, back, rfl, hf, hb⟩ := fit_append_iff.mp ha
      obtain ⟨others, hm, hp⟩ := ih hr hb
      obtain ⟨read, ho, hc⟩ := exists_spellsSteps_cons hs hf
      exact ⟨read :: others, (hc back others hm).2 q, (ho.append hp).inner .dot q⟩

/-- Written steps with points between them. -/
lemma exists_spellsSteps_signs {rest : List Segment} (hr : ∀ s ∈ rest, s.IsStep)
    (hf : Fit (steps rest) tokens) :
    ∃ read, SpellsSteps tokens read ∧ Placement (steps rest) tokens rest read := by
  cases rest with
  | nil =>
      obtain rfl := fit_nil_iff.mp hf
      exact ⟨[], .nil, .nil⟩
  | cons first rest =>
      obtain ⟨hs, hr⟩ := List.forall_mem_cons.mp hr
      rw [← List.nil_append (first :: rest), steps_append_cons, List.flatMap_nil,
        List.nil_append] at hf ⊢
      obtain ⟨front, back, rfl, hf, hb⟩ := fit_append_iff.mp hf
      obtain ⟨others, hm, hp⟩ := exists_spellsSteps_points hr hb
      obtain ⟨read, ho, hc⟩ := exists_spellsSteps_cons hs hf
      exact ⟨read :: others, (hc back others hm).1, ho.append hp⟩

/-- A written source may end a path. -/
lemma exists_spellsPhrase_source {last : Segment} (hs : last.IsSource)
    (hf : Fit last.signs tokens) :
    ∃ read, Placement last.signs tokens [last] [read]
      ∧ ∀ front lead, SpellsLead front lead →
        SpellsPhrase (front ++ tokens) (.path (lead ++ [read])) := by
  obtain ⟨form, r⟩ := last
  rcases hs with ht | ⟨text, ht⟩
  · cases ht
    obtain ⟨p, none, rfl, ha⟩ := fit_cons_iff.mp hf
    obtain rfl := fit_nil_iff.mp ha
    exact ⟨⟨.input, p⟩, Placement.nil.opening .dollar p r .input, fun front lead hl => .input p hl⟩
  · cases ht
    obtain ⟨p, after, rfl, ha⟩ := fit_cons_iff.mp hf
    obtain ⟨q, none, rfl, hb⟩ := fit_cons_iff.mp ha
    obtain rfl := fit_nil_iff.mp hb
    exact ⟨⟨.property text, p⟩,
      (Placement.nil.inner (.identifier text) q).opening .hash p r (.property text),
      fun front lead hl => .property text p q hl⟩

/-- A written constant may end a value phrase. -/
lemma exists_spellsPhrase_constant {last : Segment} (hc : last.IsConstant)
    (hf : Fit last.signs tokens) :
    ∃ read, Placement last.signs tokens [last] [read]
      ∧ ∀ front lead, SpellsLead front lead →
        SpellsPhrase (front ++ tokens) (.value (lead ++ [read])) := by
  obtain ⟨form, r⟩ := last
  obtain ⟨key, value, ht⟩ := hc
  cases ht
  obtain ⟨p, after, rfl, ha⟩ := fit_cons_iff.mp hf
  obtain ⟨q, others, rfl, hb⟩ := fit_cons_iff.mp ha
  obtain ⟨u, none, rfl, hd⟩ := fit_cons_iff.mp hb
  obtain rfl := fit_nil_iff.mp hd
  refine ⟨⟨.constant key value, p⟩,
    ((Placement.nil.inner value.kind u).inner .colon q).opening (.identifier key) p r
      (.constant key value), fun front lead hl => ?_⟩
  cases value with
  | number value => exact .number key value p q u hl
  | word text => exact .word key text p q u hl

lemma steps_concat (lead : List Segment) (last : Segment) :
    steps (lead ++ [last]) = (lead.flatMap fun s => s.signs ++ [Sign.point]) ++ last.signs := by
  rw [steps_append_cons, List.flatMap_nil, List.append_nil]

/-- The map operator between written names and whatever spells the steps behind it. -/
lemma exists_spellsPhrase_each {lead rest : List Segment} {first : Segment} {middle : List Sign}
    (hn : ∀ s ∈ lead, s.IsName) (he : first.form = .each)
    (hm : ∀ {back}, Fit middle back →
      ∃ read, SpellsSteps back read ∧ Placement middle back rest read)
    (hf : Fit ((lead.flatMap fun s => s.signs ++ [Sign.point]) ++ (first.signs ++ middle)) tokens) :
    ∃ read, SpellsPhrase tokens read ∧ read.unplaced = (Phrase.map lead (first :: rest)).unplaced
      ∧ Placement ((lead.flatMap fun s => s.signs ++ [Sign.point]) ++ (first.signs ++ middle))
        tokens (lead ++ first :: rest) read.segments := by
  obtain ⟨form, r⟩ := first
  cases he
  obtain ⟨front, after, rfl, hl, ha⟩ := fit_append_iff.mp hf
  obtain ⟨p, others, rfl, hb⟩ := fit_cons_iff.mp ha
  obtain ⟨q, back, rfl, hd⟩ := fit_cons_iff.mp hb
  obtain ⟨names, hs, hp⟩ := exists_spellsLead_signs hn hl
  obtain ⟨read, ht, hq⟩ := hm hd
  have ho := (hq.inner .arrow q).opening .dollar p r .each
  exact ⟨.map names (⟨.each, p⟩ :: read), .map p q hs ht,
    congrArg₂ Phrase.map hp.unplaced_eq ho.unplaced_eq, hp.append ho⟩

/-- Tokens that are written for a phrase spell it. -/
lemma exists_spellsPhrase_signs {phrase : Phrase} (h : phrase.IsArranged) (pointed : Bool)
    (hf : Fit (phrase.signs pointed) tokens) :
    ∃ read, SpellsPhrase tokens read ∧ read.unplaced = phrase.unplaced
      ∧ Placement (phrase.signs pointed) tokens phrase.segments read.segments := by
  cases h with
  | @path lead last hn hs =>
      rw [Phrase.signs, steps_concat] at hf ⊢
      obtain ⟨front, back, rfl, hl, hb⟩ := fit_append_iff.mp hf
      obtain ⟨names, hs', hp⟩ := exists_spellsLead_signs hn hl
      obtain ⟨read, hq, hc⟩ := exists_spellsPhrase_source hs hb
      have ho := hp.append hq
      exact ⟨_, hc front names hs', congrArg Phrase.path ho.unplaced_eq, ho⟩
  | @value lead last hn hc =>
      rw [Phrase.signs, steps_concat] at hf ⊢
      obtain ⟨front, back, rfl, hl, hb⟩ := fit_append_iff.mp hf
      obtain ⟨names, hs, hp⟩ := exists_spellsLead_signs hn hl
      obtain ⟨read, hq, hc⟩ := exists_spellsPhrase_constant hc hb
      have ho := hp.append hq
      exact ⟨_, hc front names hs, congrArg Phrase.value ho.unplaced_eq, ho⟩
  | @map lead rest first hn he hs =>
      cases pointed with
      | true =>
          have hw : (Phrase.map lead (first :: rest)).signs true = _ :=
            steps_append_cons lead first rest
          rw [hw] at hf ⊢
          exact exists_spellsPhrase_each hn he (exists_spellsSteps_points hs) hf
      | false =>
          have hw : (Phrase.map lead (first :: rest)).signs false =
              (lead.flatMap fun s => s.signs ++ [Sign.point]) ++ (first.signs ++ steps rest) := by
            rw [← List.append_assoc, ← steps_concat]
            rfl
          rw [hw] at hf ⊢
          exact exists_spellsPhrase_each hn he (exists_spellsSteps_signs hs) hf

/-! ### Programs -/

/-- Tokens that are written for a program spell its phrases. -/
lemma exists_spellsPhrases_signs {phrases : List Phrase}
    (h : ∀ phrase ∈ phrases, phrase.IsArranged) (pointed closed : Bool)
    (hf : Fit (Program.signs pointed closed ⟨phrases⟩) tokens) :
    ∃ read, SpellsPhrases tokens read ∧ read.map Phrase.unplaced = phrases.map Phrase.unplaced
      ∧ Placement (Program.signs pointed closed ⟨phrases⟩) tokens (phrases.flatMap Phrase.segments)
        (read.flatMap Phrase.segments) := by
  induction phrases generalizing tokens with
  | nil =>
      cases closed with
      | true =>
          obtain ⟨p, none, rfl, ha⟩ := fit_cons_iff.mp hf
          obtain rfl := fit_nil_iff.mp ha
          exact ⟨[], .separator p, rfl, Placement.nil.inner .semicolon p⟩
      | false =>
          obtain rfl := fit_nil_iff.mp hf
          exact ⟨[], .nil, rfl, .nil⟩
  | cons phrase rest ih =>
      obtain ⟨hp, hr⟩ := List.forall_mem_cons.mp h
      cases rest with
      | nil =>
          rw [signs_singleton] at hf ⊢
          obtain ⟨front, back, rfl, ha, hb⟩ := fit_append_iff.mp hf
          obtain ⟨read, hs, hu, ho⟩ := exists_spellsPhrase_signs hp pointed ha
          cases closed with
          | true =>
              obtain ⟨p, none, rfl, hd⟩ := fit_cons_iff.mp hb
              obtain rfl := fit_nil_iff.mp hd
              refine ⟨[read], .lastSeparator p hs, congrArg (fun u => [u]) hu, ?_⟩
              simpa [Sign.separator] using ho.append (Placement.nil.inner .semicolon p)
          | false =>
              obtain rfl := fit_nil_iff.mp hb
              refine ⟨[read], ?_, congrArg (fun u => [u]) hu, ?_⟩
              · simpa using SpellsPhrases.last hs
              · simpa using ho
      | cons next more =>
          rw [signs_cons_cons] at hf ⊢
          obtain ⟨front, after, rfl, ha, hb⟩ := fit_append_iff.mp hf
          obtain ⟨p, back, rfl, hd⟩ := fit_cons_iff.mp hb
          obtain ⟨read, hs, hu, ho⟩ := exists_spellsPhrase_signs hp pointed ha
          obtain ⟨others, ht, hv, hq⟩ := ih hr hd
          obtain ⟨other, also, rfl, -, -⟩ := List.map_eq_cons_iff.mp hv
          refine ⟨read :: other :: also, .cons p hs ht, ?_, ho.append (hq.inner .semicolon p)⟩
          rw [List.map_cons, hu, hv]
          rfl

/-- **Reading undoes writing.** The text of a program whose phrases are arranged and whose segments
are legible is read as that program, however wide the blanks around its tokens are, and each segment
is read with the offset of the token at which it begins. -/
theorem ofText_writing {program : Program} {gap : Nat → List Char}
    (ha : ∀ phrase ∈ program.phrases, phrase.IsArranged)
    (hl : ∀ segment ∈ program.segments, segment.IsLegible)
    (hg : ∀ i, ∀ c ∈ gap i, isBlank c) (pointed closed : Bool) :
    ∃ read, Program.ofText (program.writing gap pointed closed) = .ok read
      ∧ read.unplaced = program.unplaced
      ∧ read.segments.map Segment.position = program.openings gap pointed closed := by
  have hk : ∀ kind ∈ (program.signs pointed closed).map Sign.kind, kind.IsLegible :=
    List.forall_mem_map.mpr (isLegible_signs hl pointed closed)
  have ht := tokens_spacedText hg hk (isChain_signs ha pointed closed) 0
  have hw : Token.ofText (program.writing gap pointed closed) =
      Cursor.tokens ⟨0, spacedText gap ((program.signs pointed closed).map Sign.kind)⟩ := by
    rw [Token.ofText, Cursor.start, Program.writing, String.toList_ofList]
  obtain ⟨read, hs, hu, hp⟩ :=
    exists_spellsPhrases_signs ha pointed closed (map_kind_placedTokens gap 0 _)
  refine ⟨⟨read⟩, ?_, congrArg Program.mk hu, hp.position_eq⟩
  refine bind_eq_ok_iff.mpr ⟨_, hw.trans ht, ofTokens_eq_ok_iff.mpr ?_⟩
  rw [significant_append_end hs.hasNoEnd rfl]
  exact hs

/-- A map and a constant, with ideographic spaces and tabulators around some of their tokens. -/
theorem ofText_writing_phrases :
    ∃ read,
      Program.ofText "x\u3000\t.$\u3000\t>p\u3000\t.#\u3000\tq;\u3000\tn:\u3000\t120" = .ok read
      ∧ read.unplaced = ⟨[.map [⟨.name "x", 0⟩] [⟨.each, 0⟩, ⟨.name "p", 0⟩, ⟨.property "q", 0⟩],
        .value [⟨.constant "n" (.number (.integer 120)), 0⟩]]⟩
      ∧ read.segments.map Segment.position = [0, 4, 8, 12, 19] := by
  have hw : IsWord "x" ∧ IsWord "p" ∧ IsWord "q" ∧ IsWord "n" :=
    ⟨⟨'x', [], rfl, rfl, by simp⟩, ⟨'p', [], rfl, rfl, by simp⟩, ⟨'q', [], rfl, rfl, by simp⟩,
      ⟨'n', [], rfl, rfl, by simp⟩⟩
  refine @ofText_writing
    ⟨[.map [⟨.name "x", 0⟩] [⟨.each, 0⟩, ⟨.name "p", 0⟩, ⟨.property "q", 0⟩],
      .value [⟨.constant "n" (.number (.integer 120)), 0⟩]]⟩
    (fun i => if i % 2 = 0 then [] else ['\u3000', '\t']) ?_ ?_ ?_ false false
  · have hm : (Phrase.map [⟨.name "x", 0⟩]
        [⟨.each, 0⟩, ⟨.name "p", 0⟩, ⟨.property "q", 0⟩]).IsArranged := by
      simp [isArranged_map_cons_iff, Segment.IsStep, Segment.IsName]
    have hv : (Phrase.value ([] ++ [⟨.constant "n" (.number (.integer 120)), 0⟩])).IsArranged :=
      .value (by simp) ⟨"n", .number (.integer 120), rfl⟩
    simpa using ⟨hm, hv⟩
  · have hn : (Constant.number (.integer 120)).kind.IsLegible := by
      show 0 ≤ (120 : Int64).toInt
      decide
    simpa [Program.segments, Phrase.segments, Segment.IsLegible, hn] using hw
  · intro i c hc
    split at hc
    · exact absurd hc List.not_mem_nil
    · obtain rfl | rfl := by simpa using hc
      · rfl
      · rfl

end Reshape
