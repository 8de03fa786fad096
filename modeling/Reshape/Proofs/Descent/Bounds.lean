import Reshape.Proofs.Descent.Turns

/-!
Descents come to their end, and stay within their list.

* `SpellsPhrases.length_le`: separators stand between phrases.
* `finishes_programTurn` and `finishes_program`: the loop over the phrases of a program.
* `exists_marked_eq` and `exists_facing`: where the end of the input is marked.
* `exists_mem_ofTokens`: a descent ends with what `Program.ofTokens` says.
* `Progresses`: a turn that is followed by another one moves the cursor forward.
* `ends_within_bounds`: what comes of a descent, what it reads, how far it moves and how many turns
  it makes.
-/

namespace Reshape

/-- There is at most one phrase more than there are separators. -/
lemma SpellsPhrases.length_le {tokens : List Token} {phrases : List Phrase}
    (h : SpellsPhrases tokens phrases) :
    phrases.length ≤ tokens.countP (·.kind = .semicolon) + 1 := by
  induction h with
  | nil => exact Nat.zero_le _
  | separator p => exact Nat.zero_le _
  | last h => simp
  | lastSeparator p h => simp
  | cons p h _ ih =>
      simp only [List.countP_append, List.countP_cons, List.length_cons, decide_true,
        if_true] at ih ⊢
      omega

namespace Descent

variable {α σ : Type} {s : State} {c : Course} {rest : List Token} {outer inner size tokens : Nat}
  {expected : Except Rejection (List Phrase)} {phrases : List Phrase}
  {Q : Except Halt α → State → Prop}

/-! ### The loop over the phrases of a program -/

/-- What a descent makes of tokens that are all to be read: the given phrases or the token that is
to be rejected, with no more turns than a given number in the loop over phrases and in the loops
over steps, and with one turn more than that in all of them. -/
def ReadsAll (c : Course) (expected : Except Rejection (List Phrase)) (size : Nat)
    (outcome : Except Halt (List Phrase)) (s : State) : Prop :=
  ∃ rest outer inner, Facing c rest outer inner s ∧ outer ≤ size ∧ inner ≤ size
    ∧ outer + inner ≤ size + 1 ∧ outcome = expected.mapError .rejected

/-- The place of the loop over the phrases of a program: a number of tokens is ahead, from which the
phrases behind those that are read already are to be read. The turn for the last phrase is the one
that no separator makes up for. -/
def AtProgram (c : Course) (expected : Except Rejection (List Phrase)) (size tokens : Nat)
    (phrases : List Phrase) (s : State) : Prop :=
  ∃ rest outer inner, Facing c rest outer inner s ∧ rest.length = tokens ∧ outer + tokens ≤ size
    ∧ inner + tokens ≤ size
    ∧ (outer + inner + tokens ≤ size ∨ tokens = 0 ∧ outer + inner ≤ size + 1)
    ∧ (phrases ++ ·) <$> phrasesFrom c.stop .start rest = expected

/-- A turn of the loop over phrases spends tokens, or it ends the loop. -/
lemma finishes_programTurn (ha : AtProgram c expected size tokens phrases s) :
    Finishes (programTurn c.tokens phrases) s
      (Turn.Leads (fun next s => ∃ left < tokens, AtProgram c expected size left next s)
        (ReadsAll c expected size)) := by
  obtain ⟨rest, outer, inner, h, rfl, ho, hi, hs, rfl⟩ := ha
  cases rest with
  | nil =>
      rw [List.length_nil] at ho hi hs
      refine h.check_of_eq c.kind_stop fun s h => finishes_pure ?_
      refine ⟨[], outer, inner, h, ho, hi, by omega, ?_⟩
      rw [phrasesFrom_start_nil]
      exact congrArg Except.ok (List.append_nil phrases).symm
  | cons token rest =>
      rw [List.length_cons] at ho hi hs
      refine h.check_of_ne (h.hasNoEnd token List.mem_cons_self) fun s h =>
        h.note_program fun s h => (finishes_phrase h).bind ?_ ?_
      · rintro phrase s ⟨left, turns, h, ha, hl, ht, he⟩
        rw [he]
        cases left with
        | nil =>
            refine h.check_of_ne (by simp [c.kind_stop]) fun s h => finishes_pure ?_
            refine ⟨0, by simp, [], _, _, h, rfl, by omega, by simpa using by omega, by omega, ?_⟩
            rw [phrasesFrom_start_nil, phrasesFrom_nil (by simp [Stage.start])]
            exact congrArg Except.ok (List.append_nil _)
        | cons separator more =>
            rw [List.length_cons] at hl ht
            obtain ⟨kind, p⟩ := separator
            obtain rfl : kind = .semicolon := ha _ rfl
            refine h.check_of_eq rfl fun s h => h.advance fun s h => finishes_pure ?_
            refine ⟨more.length, ?_, more, _, _, h, rfl, by omega, by omega, by omega, ?_⟩
            · rw [List.length_cons]
              omega
            · rw [phrasesFrom_semicolon rfl]
              cases phrasesFrom c.stop .start more <;> simp
      · rintro halt s ⟨left, turns, token, h, ht, rfl, he⟩
        refine ⟨left, _, _, h, by omega, by omega, by omega, ?_⟩
        rw [he]
        rfl

/-- It is noticed that a separator is all that is left. -/
lemma Facing.atLoneSeparator_of_eq {p : Nat} (h : Facing c [⟨.semicolon, p⟩] outer inner s)
    {x y : Descent α} (hx : ∀ s, Facing c [⟨.semicolon, p⟩] outer inner s → Finishes x s Q) :
    Finishes (do if ← atLoneSeparator c.tokens then x else y) s Q := by
  rw [atLoneSeparator, bind_assoc]
  refine h.check fun s h => ?_
  rw [List.headD_cons, decide_eq_true rfl, if_pos rfl, bind_assoc]
  refine h.peek (by simp) fun s h => ?_
  rw [pure_bind, List.drop_one, List.tail_cons, List.headD_nil, decide_eq_true c.kind_stop,
    if_pos rfl]
  exact hx s h

lemma Facing.atLoneSeparator_of_ne (h : Facing c rest outer inner s)
    (hr : ∀ p, rest ≠ [⟨.semicolon, p⟩]) {x y : Descent α}
    (hy : ∀ s, Facing c rest outer inner s → Finishes y s Q) :
    Finishes (do if ← atLoneSeparator c.tokens then x else y) s Q := by
  rw [atLoneSeparator, bind_assoc]
  refine h.check fun s h => ?_
  by_cases hk : (rest.headD c.stop).kind = .semicolon
  · obtain ⟨p, more, rfl⟩ := exists_cons_of_headD_kind hk (by simp)
    have hm : more ≠ [] := by
      rintro rfl
      exact hr p rfl
    obtain ⟨token, more, rfl⟩ := List.exists_cons_of_ne_nil hm
    rw [decide_eq_true hk, if_pos rfl, bind_assoc]
    refine h.peek (by simp) fun s h => ?_
    have hne : token.kind ≠ .endOfInput := h.hasNoEnd token (by simp)
    rw [pure_bind, List.drop_one, List.tail_cons, List.headD_cons, decide_eq_false hne,
      if_neg Bool.false_ne_true]
    exact hy s h
  · rw [decide_eq_false hk, if_neg Bool.false_ne_true, pure_bind, if_neg Bool.false_ne_true]
    exact hy s h

/-- From the significant tokens of a list, a descent makes the program of that list. -/
lemma finishes_program {given : List Token} (h : Facing c (significant given) 0 0 s)
    (hs : c.stop = stopToken given) :
    Finishes (program c.tokens) s fun outcome s => ∃ rest outer inner, Facing c rest outer inner s
      ∧ outer ≤ (significant given).length ∧ inner ≤ (significant given).length
      ∧ outer + inner ≤ (significant given).length + 1
      ∧ outcome = (Program.ofTokens given).mapError .rejected := by
  unfold Program.ofTokens
  split
  · next p hb =>
      rw [hb] at h ⊢
      exact h.atLoneSeparator_of_eq fun s h => finishes_pure
        ⟨_, _, _, h, Nat.zero_le _, Nat.zero_le _, Nat.zero_le _, rfl⟩
  · next hb =>
      refine h.atLoneSeparator_of_ne hb fun s h => ?_
      have hl : Finishes (turns (programTurn c.tokens) []) s
          (ReadsAll c (phrasesFrom c.stop .start (significant given)) (significant given).length) :=
        finishes_turns (fun _ _ _ => finishes_programTurn)
          ⟨_, 0, 0, h, rfl, by omega, by omega, by omega, by simp⟩
      rw [← hs, mapError_map]
      refine hl.bind ?_ ?_
      · rintro phrases s ⟨rest, outer, inner, h, ho, hi, hoi, he⟩
        exact finishes_pure ⟨rest, outer, inner, h, ho, hi, hoi, by rw [← he]; rfl⟩
      · rintro halt s ⟨rest, outer, inner, h, ho, hi, hoi, he⟩
        exact ⟨rest, outer, inner, h, ho, hi, hoi, by rw [← he]; rfl⟩

/-! ### Where the end of the input is marked -/

/-- Tokens with an end of the input among them are cut at the first one. -/
lemma exists_eq_append_end {given : List Token} (h : ¬ HasNoEnd given) :
    ∃ before stop beyond, given = before ++ stop :: beyond ∧ HasNoEnd before
      ∧ stop.kind = .endOfInput := by
  obtain ⟨token, hm, hk⟩ : ∃ token ∈ given, token.kind = .endOfInput := by
    simpa [HasNoEnd] using h
  obtain ⟨stop, hs⟩ : ∃ stop, given.find? (·.kind = .endOfInput) = some stop :=
    Option.isSome_iff_exists.mp (List.find?_isSome.mpr ⟨token, hm, decide_eq_true hk⟩)
  obtain ⟨hk, before, beyond, rfl, hb⟩ := List.find?_eq_some_iff_append.mp hs
  exact ⟨before, stop, beyond, rfl, fun token ht => by simpa using hb token ht, by simpa using hk⟩

/-- Marking adds nothing or one token. -/
lemma exists_marked_eq_append (given : List Token) : ∃ more, marked given = given ++ more := by
  unfold marked
  split
  · exact ⟨[], (List.append_nil given).symm⟩
  · exact ⟨_, rfl⟩

/-- A marked list ends with a mark. -/
lemma exists_marked_eq_concat (given : List Token) :
    ∃ front stop, marked given = front ++ [stop] ∧ stop.kind = .endOfInput := by
  unfold marked
  split
  · next p hl =>
      obtain ⟨front, rfl⟩ := List.getLast?_eq_some_iff.mp hl
      exact ⟨front, ⟨.endOfInput, p⟩, rfl, rfl⟩
  · exact ⟨given, _, rfl, rfl⟩

/-- In a marked list the first end of the input stands behind the significant tokens. -/
lemma exists_marked_eq (given : List Token) :
    ∃ beyond, marked given = significant given ++ stopToken given :: beyond := by
  by_cases hn : HasNoEnd given
  · rw [significant_eq_self hn]
    unfold marked
    split
    · next p hl =>
        exact absurd rfl (hn _ (List.mem_of_getLast? hl))
    · refine ⟨[], ?_⟩
      have hf : given.find? (·.kind = .endOfInput) = none := by
        simpa [HasNoEnd] using hn
      rw [stopToken, hf]
  · obtain ⟨before, stop, beyond, rfl, hb, hk⟩ := exists_eq_append_end hn
    obtain ⟨more, hm⟩ := exists_marked_eq_append (before ++ stop :: beyond)
    refine ⟨beyond ++ more, ?_⟩
    rw [hm, significant_append hb]
    have hf : before.find? (·.kind = .endOfInput) = none := by
      simpa [HasNoEnd] using hb
    simp [significant, stopToken, List.find?_append, hf, hk]

lemma findIdx_marked (given : List Token) :
    (marked given).findIdx (·.kind = .endOfInput) = (significant given).length := by
  obtain ⟨beyond, hm⟩ := exists_marked_eq given
  have hn : ¬ (significant given).findIdx (·.kind = .endOfInput) < (significant given).length := by
    rw [List.findIdx_lt_length]
    rintro ⟨token, ht, hk⟩
    exact hasNoEnd_significant given token ht (of_decide_eq_true hk)
  rw [hm, List.findIdx_append, if_neg hn, List.findIdx_cons, decide_eq_true (kind_stopToken given)]
  exact Nat.zero_add _

/-- A descent ends with the program or the rejection of its list, and goes no further than the
first end of the input. -/
lemma exists_mem_ofTokens (given : List Token) :
    ∃ last : State, ((Program.ofTokens given).mapError .rejected, last) ∈ ofTokens given
      ∧ (∀ event ∈ last.record,
        event.IsWithin (marked given).length (significant given).length)
      ∧ last.cursor ≤ (significant given).length
      ∧ last.turns .program ≤ (significant given).length
      ∧ last.turns .phrase + last.turns .map ≤ (significant given).length
      ∧ last.turns .program + last.turns .phrase + last.turns .map
        ≤ (significant given).length + 1 := by
  obtain ⟨beyond, hm⟩ := exists_marked_eq given
  let c : Course := ⟨marked given, stopToken given, beyond, [], kind_stopToken given⟩
  have hfacing : Facing c (significant given) 0 0 ⟨0, []⟩ :=
    ⟨hm, hasNoEnd_significant given, rfl, rfl, by simp⟩
  have hplace : c.place = (significant given).length := by
    rw [← hfacing.cursor_add_eq_place, Nat.zero_add]
  obtain ⟨_, last, hrun, rest, outer, inner, h, ho, hi, hoi, rfl⟩ := finishes_program hfacing rfl
  refine ⟨last, hrun, ?_, ?_, ?_⟩
  · intro event he
    rw [← hplace]
    exact (h.within event he).resolve_left List.not_mem_nil
  · rw [← hplace, ← h.cursor_add_eq_place]
    exact Nat.le_add_right _ _
  · rw [h.turns_program, Nat.add_assoc, h.turns_inner]
    exact ⟨ho, hi, hoi⟩

/-! ### Turns that move the cursor -/

/-- Wherever the cursor stands in a marked list, an end of the input lies ahead. -/
lemma exists_facing {given : List Token} (h : s.cursor < (marked given).length) :
    ∃ c rest, c.tokens = marked given
      ∧ Facing c rest (s.turns .program) (s.turns .phrase + s.turns .map) s := by
  obtain ⟨front, last, hm, hk⟩ := exists_marked_eq_concat given
  have hd : ¬ HasNoEnd ((marked given).drop s.cursor) := by
    rw [hm, List.length_append, List.length_singleton] at h
    rw [hm, List.drop_append_of_le_length (by omega)]
    exact fun hn => hn last (by simp) hk
  obtain ⟨rest, stop, beyond, hd, hn, hs⟩ := exists_eq_append_end hd
  let c : Course := ⟨marked given, stop, beyond, s.record, hs⟩
  exact ⟨c, rest, rfl, hd, hn, rfl, rfl, fun _ he => .inl he⟩

lemma Facing.cursor_lt {reached : State} {left : List Token} {outer' inner' : Nat}
    (h : Facing c rest outer inner s) (hl : Facing c left outer' inner' reached)
    (hlt : left.length < rest.length) : s.cursor < reached.cursor := by
  have hp := h.cursor_add_eq_place
  have hq := hl.cursor_add_eq_place
  omega

/-- Wherever in the list a turn begins: if another turn follows it, then it has moved the cursor
forward. -/
def Progresses (tokens : List Token) (turn : σ → Descent (Turn σ α)) : Prop :=
  ∀ (x next : σ) (s reached : State), s.cursor < tokens.length →
    (.ok (.again next), reached) ∈ (turn x).run.run s → s.cursor < reached.cursor

lemma progresses_mapTurn (given : List Token) (lead : List Segment) :
    Progresses (marked given) (mapTurn (marked given) lead) := by
  intro segments next s reached hs hr
  obtain ⟨c, rest, hm, h⟩ := exists_facing hs
  rw [← hm] at hr
  obtain ⟨_, hlt, left, _, hl, rfl, -⟩ :=
    (finishes_mapTurn ⟨rest, _, h, rfl, le_rfl, le_rfl, rfl⟩).of_mem hr
  exact h.cursor_lt hl hlt

/-- At the end of the input there is no other turn. -/
lemma finishes_phraseTurn_nil {segments : List Segment} (h : Facing c [] outer inner s) :
    Finishes (phraseTurn c.tokens segments) s (Turn.Leads (fun _ _ => False) fun _ _ => True) := by
  refine h.note_inner (by simp) fun s h => h.current fun s h => ?_
  rw [List.headD_nil, c.kind_stop]
  exact h.unexpected fun s h => trivial

lemma progresses_phraseTurn (given : List Token) :
    Progresses (marked given) (phraseTurn (marked given)) := by
  intro segments next s reached hs hr
  obtain ⟨c, rest, hm, h⟩ := exists_facing hs
  rw [← hm] at hr
  cases rest with
  | nil => exact absurd ((finishes_phraseTurn_nil h).of_mem hr) id
  | cons token rest =>
      have ha : AtPhrase c _ _ _ _ _ segments s :=
        ⟨token :: rest, _, h, rfl, Nat.succ_pos _, le_rfl, le_rfl, rfl⟩
      obtain ⟨_, hlt, left, _, hl, rfl, -⟩ := (finishes_phraseTurn ha).of_mem hr
      exact h.cursor_lt hl hlt

lemma progresses_programTurn (given : List Token) :
    Progresses (marked given) (programTurn (marked given)) := by
  intro phrases next s reached hs hr
  obtain ⟨c, rest, hm, h⟩ := exists_facing hs
  rw [← hm] at hr
  have ha : AtProgram c _ (s.turns .program + (s.turns .phrase + s.turns .map) + rest.length)
      rest.length phrases s :=
    ⟨rest, _, _, h, rfl, by omega, by omega, .inl le_rfl, rfl⟩
  obtain ⟨_, hlt, left, _, _, hl, rfl, -⟩ := (finishes_programTurn ha).of_mem hr
  exact h.cursor_lt hl hlt

/-- **Descents come to their end within their list.** In all three loops a turn that is followed by
another one moves the cursor forward, wherever in the list it begins. A descent through a list of
tokens ends with the program of that list or with its rejection. On the way it reads no place
outside the list, and the cursor moves to no place behind the first end of the input. The turns of
the loop over phrases are not more than the tokens in front of that place, and neither are those of
the loops over steps; all turns together are not more than the tokens up to and with it. A program
has at most one phrase more than there are separators in front of that place. -/
theorem ends_within_bounds (given : List Token) :
    let tokens := marked given
    let stop := tokens.findIdx (·.kind = .endOfInput)
    (Progresses tokens (programTurn tokens)
      ∧ Progresses tokens (phraseTurn tokens)
      ∧ ∀ lead, Progresses tokens (mapTurn tokens lead))
    ∧ (stop < tokens.length ∧ stop ≤ given.length)
    ∧ (∃ last : State,
      ((Program.ofTokens given).mapError .rejected, last) ∈ ofTokens given
      ∧ (∀ place, .read place ∈ last.record → place < tokens.length)
      ∧ (∀ place, .move place ∈ last.record → place ≤ stop)
      ∧ last.cursor ≤ stop
      ∧ last.turns .program ≤ stop
      ∧ last.turns .phrase + last.turns .map ≤ stop
      ∧ last.turns .program + last.turns .phrase + last.turns .map ≤ stop + 1)
    ∧ ∀ program, Program.ofTokens given = .ok program →
        program.phrases.length ≤ (tokens.take stop).countP (·.kind = .semicolon) + 1 := by
  intro tokens stop
  obtain ⟨beyond, hm⟩ := exists_marked_eq given
  have hstop : stop = (significant given).length := findIdx_marked given
  refine ⟨⟨progresses_programTurn given, progresses_phraseTurn given, progresses_mapTurn given⟩,
    ?_, ?_, ?_⟩
  · have hlength : tokens.length = _ := congrArg List.length hm
    rw [List.length_append, List.length_cons] at hlength
    rw [hstop]
    exact ⟨by omega, (List.takeWhile_sublist _).length_le⟩
  · obtain ⟨last, hrun, hwithin, hcursor, hturns⟩ := exists_mem_ofTokens given
    rw [hstop]
    exact ⟨last, hrun, fun _ => hwithin _, fun _ => hwithin _, hcursor, hturns⟩
  · intro program hp
    have htake : tokens.take stop = significant given := by
      rw [hstop, show tokens = significant given ++ stopToken given :: beyond from hm,
        List.take_left]
    rw [htake]
    exact (ofTokens_eq_ok_iff.mp hp).length_le

end Descent

end Reshape
