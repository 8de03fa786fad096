import Reshape.Proofs.Descent.Facing

/-!
The loops over the steps of a phrase and of a map, turn by turn, against the stages of a phrase.

* `phrasesFrom_of_stuck` and `phrasesFrom_eq_complete`: the stages at which no token can follow.
* `Reads`: what a descent makes of the tokens from which given phrases are to be read.
* `finishes_mapTurn` and `finishes_map`: the loop over the steps of a map.
* `finishes_phraseTurn` and `finishes_phrase`: the loop over the steps of a phrase.

A turn spends at least one token, or it ends its loop. This is why the loops end, and why the turns
and the tokens that are left are together never more than before.
-/

namespace Reshape

section PhrasesFrom

variable {stop token : Token} {stage other after : Stage} {lead segments : List Segment}
  {rest : List Token} {phrase : Phrase}

/-! ### Stages at which no token can follow -/

/-- Where a phrase cannot end and the next token cannot follow, it is rejected. -/
lemma phrasesFrom_of_stuck (hs : stage ≠ .start) (hp : stage.phrase? = none)
    (hn : stage.next? (rest.headD stop) = none) :
    phrasesFrom stop stage rest = .error (.unexpectedToken (rest.headD stop)) := by
  cases rest with
  | nil => rw [phrasesFrom_nil hs, hp, List.headD_nil]
  | cons token rest => exact phrasesFrom_cons_of_none hn fun _ => hp

/-- Where a phrase can end and the next token cannot follow, the phrase is complete. -/
lemma phrasesFrom_eq_complete (hp : stage.phrase? = some phrase)
    (hn : stage.next? (rest.headD stop) = none) :
    phrasesFrom stop stage rest = phrasesFrom stop (.complete phrase) rest := by
  cases rest with
  | nil =>
      have hs : stage ≠ .start := by
        rintro rfl
        exact absurd hp (by simp [Stage.start, Stage.phrase?])
      rw [phrasesFrom_nil hs, phrasesFrom_nil (by simp [Stage.start]), hp]
      rfl
  | cons token rest =>
      rw [List.headD_cons] at hn
      by_cases hk : token.kind = .semicolon
      · obtain ⟨kind, p⟩ := token
        cases hk
        rw [phrasesFrom_semicolon hp, phrasesFrom_semicolon rfl]
      · rw [phrasesFrom_cons_of_none hn fun h => absurd h hk,
          phrasesFrom_cons_of_none (by rfl) fun h => absurd h hk]

/-- Stages that a token leads on to the same stage do not differ in front of it. -/
lemma phrasesFrom_eq_of_next? (h : stage.next? token = some after)
    (ho : other.next? token = some after) :
    phrasesFrom stop stage (token :: rest) = phrasesFrom stop other (token :: rest) := by
  rw [phrasesFrom_cons_of_next? h, phrasesFrom_cons_of_next? ho]

lemma next?_step_eq_none (hi : ∀ text, token.kind ≠ .identifier text) (hh : token.kind ≠ .hash)
    (hd : token.kind ≠ .dollar) : (Stage.step lead).next? token = none := by
  obtain ⟨kind, p⟩ := token
  cases kind with
  | identifier text => exact absurd rfl (hi text)
  | hash => exact absurd rfl hh
  | dollar => exact absurd rfl hd
  | _ => rfl

lemma next?_name_eq_none {text : String} {p : Nat} (hd : token.kind ≠ .dot)
    (hc : token.kind ≠ .colon) : (Stage.name lead text p).next? token = none := by
  obtain ⟨kind, q⟩ := token
  cases kind with
  | dot => exact absurd rfl hd
  | colon => exact absurd rfl hc
  | _ => rfl

lemma next?_property_eq_none {p : Nat} (hi : ∀ text, token.kind ≠ .identifier text) :
    (Stage.property lead p).next? token = none := by
  obtain ⟨kind, q⟩ := token
  cases kind with
  | identifier text => exact absurd rfl (hi text)
  | _ => rfl

lemma next?_constant_eq_none {key : String} {p : Nat} (hn : ∀ value, token.kind ≠ .number value)
    (hi : ∀ text, token.kind ≠ .identifier text) :
    (Stage.constant lead key p).next? token = none := by
  obtain ⟨kind, q⟩ := token
  cases kind with
  | number value => exact absurd rfl (hn value)
  | identifier text => exact absurd rfl (hi text)
  | _ => rfl

lemma next?_dollar_eq_none {p : Nat} (ha : token.kind ≠ .arrow) :
    (Stage.dollar lead p).next? token = none := by
  obtain ⟨kind, q⟩ := token
  cases kind with
  | arrow => exact absurd rfl ha
  | _ => rfl

lemma next?_mapStep_eq_none (hi : ∀ text, token.kind ≠ .identifier text)
    (hh : token.kind ≠ .hash) : (Stage.mapStep lead segments).next? token = none := by
  obtain ⟨kind, p⟩ := token
  cases kind with
  | identifier text => exact absurd rfl (hi text)
  | hash => exact absurd rfl hh
  | _ => rfl

lemma next?_mapProperty_eq_none {p : Nat} (hi : ∀ text, token.kind ≠ .identifier text) :
    (Stage.mapProperty lead segments p).next? token = none := by
  obtain ⟨kind, q⟩ := token
  cases kind with
  | identifier text => exact absurd rfl (hi text)
  | _ => rfl

end PhrasesFrom

namespace Descent

variable {α : Type} {s : State} {c : Course} {token : Token} {rest : List Token}
  {outer inner size room tokens : Nat} {expected : Except Rejection (List Phrase)}
  {phrase : Phrase} {lead segments : List Segment} {Q : Except Halt α → State → Prop}

/-! ### Ends of phrases and properties -/

/-- What a descent makes of tokens from which the given phrases are to be read. It stops behind a
phrase, and the phrases that follow are still to be read; or it reports the token that is to be
rejected. The tokens that are left, and the turns of the inner loops together with them, are not
more than given numbers. -/
def Reads (c : Course) (expected : Except Rejection (List Phrase)) (outer size room : Nat) :
    Except Halt Phrase → State → Prop
  | .ok phrase, s => ∃ rest inner, Facing c rest outer inner s ∧ AtEnd rest ∧ rest.length ≤ room
      ∧ inner + rest.length ≤ size ∧ expected = phrasesFrom c.stop (.complete phrase) rest
  | .error halt, s => ∃ rest inner token, Facing c rest outer inner s ∧ inner ≤ size
      ∧ halt = .rejected (.unexpectedToken token) ∧ expected = .error (.unexpectedToken token)

/-- The current token is the one that is to be rejected. -/
lemma Facing.reports (h : Facing c rest outer inner s) (room : Nat) (hs : inner ≤ size)
    (he : expected = .error (.unexpectedToken (rest.headD c.stop))) :
    Reads c expected outer size room
      (.error (.rejected (.unexpectedToken (rest.headD c.stop)))) s :=
  ⟨rest, inner, _, h, hs, rfl, he⟩

lemma finishes_finish (h : Facing c rest outer inner s) (hr : rest.length ≤ room)
    (hs : inner + rest.length ≤ size) (he : expected = phrasesFrom c.stop (.complete phrase) rest) :
    Finishes (finish c.tokens phrase) s (Reads c expected outer size room) := by
  by_cases ha : AtEnd rest
  · refine h.atPhraseEnd_of_atEnd ha fun s h => ?_
    exact finishes_pure ⟨rest, inner, h, ha, hr, hs, he⟩
  · cases rest with
    | nil => exact absurd (by simp [AtEnd]) ha
    | cons token rest =>
        have hk : token.kind ≠ .semicolon := by simpa [AtEnd] using ha
        refine h.atPhraseEnd_of_ne hk fun s h => h.unexpected fun s h =>
          h.reports room (by omega) ?_
        rw [he]
        exact phrasesFrom_cons_of_none (by rfl) fun h => absurd h hk

/-- A token of a kind other than the end of the input is one of those ahead. -/
lemma exists_cons_of_headD_kind {kind : Token.Kind} (hk : (rest.headD c.stop).kind = kind)
    (hne : kind ≠ .endOfInput) : ∃ p more, rest = ⟨kind, p⟩ :: more := by
  cases rest with
  | nil => exact absurd (hk.symm.trans c.kind_stop) hne
  | cons token more =>
      cases hk
      exact ⟨token.position, more, rfl⟩

/-- The name of a property follows its mark. -/
lemma Facing.property {text : String} {p q : Nat}
    (h : Facing c (⟨.hash, p⟩ :: ⟨.identifier text, q⟩ :: rest) outer inner s)
    {f : Segment → Descent α}
    (hf : ∀ s, Facing c rest outer inner s → Finishes (f ⟨.property text, p⟩) s Q) :
    Finishes (property c.tokens >>= f) s Q := by
  simp only [Descent.property, bind_assoc]
  refine h.current fun s h => h.advance fun s h => h.current fun s h => ?_
  dsimp only [List.headD_cons]
  rw [bind_assoc]
  refine h.advance fun s h => ?_
  rw [pure_bind]
  exact hf s h

/-- Another token behind the mark of a property is reported. -/
lemma Facing.property_of_ne {p : Nat} (h : Facing c (⟨.hash, p⟩ :: rest) outer inner s)
    (hk : ∀ text, (rest.headD c.stop).kind ≠ .identifier text) {f : Segment → Descent α}
    (hq : ∀ s, Facing c rest outer inner s →
      Q (.error (.rejected (.unexpectedToken (rest.headD c.stop)))) s) :
    Finishes (Descent.property c.tokens >>= f) s Q := by
  simp only [Descent.property, bind_assoc]
  refine h.current fun s h => h.advance fun s h => h.current fun s h => ?_
  split
  · next text ht => exact absurd ht (hk text)
  · exact h.unexpected_bind hq

/-! ### The loop over the steps of a map -/

/-- The place of a loop over the steps of a map: a number of tokens is ahead, from which the given
phrases are to be read. -/
def AtMap (c : Course) (lead : List Segment) (expected : Except Rejection (List Phrase))
    (outer size room tokens : Nat) (segments : List Segment) (s : State) : Prop :=
  ∃ rest inner, Facing c rest outer inner s ∧ rest.length = tokens ∧ tokens ≤ room
    ∧ inner + tokens ≤ size ∧ phrasesFrom c.stop (.map lead segments) rest = expected

/-- A turn of the loop over the steps of a map spends tokens, or it ends the loop. -/
lemma finishes_mapTurn (ha : AtMap c lead expected outer size room tokens segments s) :
    Finishes (mapTurn c.tokens lead segments) s
      (Turn.Leads (fun next s => ∃ left < tokens, AtMap c lead expected outer size room left next s)
        (Reads c expected outer size room)) := by
  obtain ⟨rest, inner, h, rfl, hr, hs, rfl⟩ := ha
  by_cases ha : AtEnd rest
  · refine h.atPhraseEnd_of_atEnd ha fun s h => finishes_pure ?_
    refine ⟨rest, inner, h, ha, hr, hs, phrasesFrom_eq_complete rfl (Stage.next?_eq_none ?_)⟩
    cases rest with
    | nil => exact .inr c.kind_stop
    | cons token rest => exact .inl (ha token rfl)
  · cases rest with
    | nil => exact absurd (by simp [AtEnd]) ha
    | cons token rest =>
        have hk : token.kind ≠ .semicolon := by simpa [AtEnd] using ha
        rw [List.length_cons] at hr hs
        refine h.atPhraseEnd_of_ne hk fun s h => h.note_inner (by simp) fun s h =>
          h.current fun s h => ?_
        obtain ⟨kind, p⟩ := token
        dsimp only [List.headD_cons]
        cases kind with
        | dot =>
            rw [phrasesFrom_cons_of_next? (by rfl)]
            refine h.advance fun s h => h.current fun s h => ?_
            have hagain {kind : Token.Kind} (hk : (rest.headD c.stop).kind = kind)
                (hne : kind ≠ .endOfInput) (hn : ∀ q, ∃ after,
                  (Stage.mapStep lead segments).next? ⟨kind, q⟩ = some after
                    ∧ (Stage.map lead segments).next? ⟨kind, q⟩ = some after) :
                AtMap c lead (phrasesFrom c.stop (.mapStep lead segments) rest) outer size room
                  rest.length segments s := by
              obtain ⟨q, more, hm⟩ := exists_cons_of_headD_kind hk hne
              obtain ⟨after, hs, ha⟩ := hn q
              refine ⟨rest, _, h, rfl, by omega, by omega, ?_⟩
              rw [hm, phrasesFrom_eq_of_next? ha hs]
            split
            · next text hk =>
                exact finishes_pure ⟨_, by simp, hagain hk (by simp) fun q => ⟨_, by rfl, by rfl⟩⟩
            · next hk =>
                exact finishes_pure ⟨_, by simp, hagain hk (by simp) fun q => ⟨_, by rfl, by rfl⟩⟩
            · next hi hh =>
                exact h.unexpected fun s h =>
                  h.reports room (by omega)
                    (phrasesFrom_of_stuck (by simp [Stage.start]) rfl (next?_mapStep_eq_none hi hh))
        | identifier text =>
            rw [phrasesFrom_cons_of_next? (by rfl)]
            refine h.advance fun s h => ?_
            by_cases hk : (rest.headD c.stop).kind = .colon
            · obtain ⟨q, more, rfl⟩ := exists_cons_of_headD_kind hk (by simp)
              exact h.check_of_eq hk fun s h => h.unexpected fun s h =>
                h.reports room (by omega) (phrasesFrom_cons_of_none rfl (by simp))
            · exact h.check_of_ne hk fun s h => finishes_pure
                ⟨_, by simp, _, _, h, rfl, by omega, by omega, rfl⟩
        | hash =>
            rw [phrasesFrom_cons_of_next? (by rfl)]
            by_cases hk : ∃ text, (rest.headD c.stop).kind = .identifier text
            · obtain ⟨text, hk⟩ := hk
              obtain ⟨q, more, rfl⟩ := exists_cons_of_headD_kind hk (by simp)
              rw [List.length_cons] at hr hs
              rw [phrasesFrom_cons_of_next? (by rfl)]
              refine h.property fun s h => finishes_pure
                ⟨_, ?_, _, _, h, rfl, by omega, by omega, rfl⟩
              rw [List.length_cons, List.length_cons]
              omega
            · have hi := not_exists.mp hk
              exact h.property_of_ne hi fun s h =>
                h.reports room (by omega)
                  (phrasesFrom_of_stuck (by simp [Stage.start]) rfl (next?_mapProperty_eq_none hi))
        | endOfInput => exact absurd rfl (h.hasNoEnd _ List.mem_cons_self)
        | _ =>
            exact h.unexpected fun s h =>
              h.reports room (by omega) (phrasesFrom_cons_of_none rfl fun h => absurd h hk)

lemma finishes_map {p q : Nat}
    (h : Facing c (⟨.dollar, p⟩ :: ⟨.arrow, q⟩ :: rest) outer inner s) (hr : rest.length ≤ room)
    (hs : inner + rest.length ≤ size)
    (he : expected = phrasesFrom c.stop (.map lead [⟨.each, p⟩]) rest) :
    Finishes (map c.tokens lead) s (Reads c expected outer size room) :=
  h.current fun _ h => h.advance fun _ h => h.advance fun _ h =>
    finishes_turns (fun _ _ _ => finishes_mapTurn) ⟨rest, inner, h, rfl, hr, hs, he.symm⟩

/-! ### The loop over the steps of a phrase -/

lemma finishes_constant {key : String} {p q : Nat}
    (h : Facing c (⟨.colon, q⟩ :: rest) outer inner s) (hr : rest.length ≤ room)
    (hs : inner + rest.length ≤ size)
    (he : expected = phrasesFrom c.stop (.constant lead key p) rest) :
    Finishes (constant c.tokens lead key p) s (Reads c expected outer size room) := by
  subst he
  refine h.advance fun s h => h.current fun s h => ?_
  split
  · next value hk =>
      obtain ⟨r, more, rfl⟩ := exists_cons_of_headD_kind hk (by simp)
      rw [List.length_cons] at hr hs
      exact h.advance fun s h =>
        finishes_finish h (by omega) (by omega) (phrasesFrom_cons_of_next? (by rfl))
  · next text hk =>
      obtain ⟨r, more, rfl⟩ := exists_cons_of_headD_kind hk (by simp)
      rw [List.length_cons] at hr hs
      exact h.advance fun s h =>
        finishes_finish h (by omega) (by omega) (phrasesFrom_cons_of_next? (by rfl))
  · next hn hi =>
      exact h.unexpected fun s h =>
        h.reports room (by omega)
          (phrasesFrom_of_stuck (by simp [Stage.start]) rfl (next?_constant_eq_none hn hi))

/-- The phrases that are to be read at a place of the loop over the steps of a phrase. In front of a
point the name before it is among the steps already, and a token has to follow the point. -/
def phrasesAt (stop : Token) (lead : List Segment) :
    List Token → Except Rejection (List Phrase)
  | [⟨.dot, _⟩] => .error (.unexpectedToken stop)
  | ⟨.dot, _⟩ :: rest => phrasesFrom stop (.step lead) rest
  | rest => phrasesFrom stop (.step lead) rest

lemma phrasesAt_dot {stop : Token} {p : Nat} (h : lead ≠ [] ∨ rest ≠ []) :
    phrasesAt stop lead (⟨.dot, p⟩ :: rest) = phrasesFrom stop (.step lead) rest := by
  cases rest with
  | nil =>
      have hs : Stage.step lead ≠ .start := by simpa [Stage.start] using h
      rw [phrasesFrom_nil hs]
      rfl
  | cons token rest => rfl

/-- A token that cannot follow a point is rejected. -/
lemma phrasesAt_dot_of_none {stop : Token} {p : Nat}
    (h : (Stage.step lead).next? (rest.headD stop) = none) :
    phrasesAt stop lead (⟨.dot, p⟩ :: rest) = .error (.unexpectedToken (rest.headD stop)) := by
  cases rest with
  | nil => rfl
  | cons token rest =>
      rw [phrasesAt_dot (.inr (by simp))]
      exact phrasesFrom_cons_of_none h fun _ => rfl

lemma phrasesAt_of_ne {stop : Token} (h : token.kind ≠ .dot) :
    phrasesAt stop lead (token :: rest) = phrasesFrom stop (.step lead) (token :: rest) := by
  unfold phrasesAt
  split
  · next ht => exact absurd (congrArg Token.kind (List.cons.inj ht).1) h
  · next ht => exact absurd (congrArg Token.kind (List.cons.inj ht).1) h
  · rfl

/-- The place of a loop over the steps of a phrase: a number of tokens is ahead, from which the
given phrases are to be read. There is at least one of them. -/
def AtPhrase (c : Course) (expected : Except Rejection (List Phrase))
    (outer size room tokens : Nat) (segments : List Segment) (s : State) : Prop :=
  ∃ rest inner, Facing c rest outer inner s ∧ rest.length = tokens ∧ 0 < tokens
    ∧ tokens ≤ room + 1 ∧ inner + tokens ≤ size ∧ phrasesAt c.stop segments rest = expected

/-- A turn of the loop over the steps of a phrase spends tokens, or it ends the loop. -/
lemma finishes_phraseTurn (ha : AtPhrase c expected outer size room tokens segments s) :
    Finishes (phraseTurn c.tokens segments) s
      (Turn.Leads (fun next s => ∃ left < tokens, AtPhrase c expected outer size room left next s)
        (Reads c expected outer size room)) := by
  obtain ⟨rest, inner, h, rfl, hp, hr, hs, rfl⟩ := ha
  obtain ⟨token, rest, rfl⟩ := List.exists_cons_of_length_pos hp
  rw [List.length_cons] at hr hs
  refine h.note_inner (by simp) fun s h => h.current fun s h => ?_
  obtain ⟨kind, p⟩ := token
  dsimp only [List.headD_cons]
  cases kind with
  | identifier text =>
      rw [phrasesAt_of_ne (by simp), phrasesFrom_cons_of_next? (by rfl)]
      refine h.advance fun s h => ?_
      by_cases hc : (rest.headD c.stop).kind = .colon
      · obtain ⟨q, more, rfl⟩ := exists_cons_of_headD_kind hc (by simp)
        rw [List.length_cons] at hr hs
        refine h.check_of_eq hc fun s h => Finishes.done ?_
        exact finishes_constant h (by omega) (by omega) (phrasesFrom_cons_of_next? (by rfl))
      · refine h.check_of_ne hc fun s h => ?_
        by_cases hd : (rest.headD c.stop).kind = .dot
        · obtain ⟨q, more, rfl⟩ := exists_cons_of_headD_kind hd (by simp)
          refine h.check_of_eq hd fun s h => finishes_pure
            ⟨_, by simp, _, _, h, rfl, by simp, by omega, by omega, ?_⟩
          rw [phrasesAt_dot (.inl (by simp)), phrasesFrom_cons_of_next? (by rfl)]
        · exact h.check_of_ne hd fun s h => h.unexpected fun s h =>
          h.reports room (by omega)
            (phrasesFrom_of_stuck (by simp [Stage.start]) rfl (next?_name_eq_none hd hc))
  | dot =>
      refine h.advance fun s h => h.current fun s h => ?_
      have hagain {kind : Token.Kind} (hk : (rest.headD c.stop).kind = kind)
          (hne : kind ≠ .endOfInput) (hd : kind ≠ .dot) :
          AtPhrase c (phrasesAt c.stop segments (⟨.dot, p⟩ :: rest)) outer size room rest.length
            segments s := by
        obtain ⟨q, more, hm⟩ := exists_cons_of_headD_kind hk hne
        refine ⟨rest, _, h, rfl, by simp [hm], by omega, by omega, ?_⟩
        rw [phrasesAt_dot (.inr (by simp [hm])), hm, phrasesAt_of_ne hd]
      split
      · next text hk => exact finishes_pure ⟨_, by simp, hagain hk (by simp) (by simp)⟩
      · next hk => exact finishes_pure ⟨_, by simp, hagain hk (by simp) (by simp)⟩
      · next hk => exact finishes_pure ⟨_, by simp, hagain hk (by simp) (by simp)⟩
      · next hi hh hd =>
          exact h.unexpected fun s h =>
            h.reports room (by omega) (phrasesAt_dot_of_none (next?_step_eq_none hi hh hd))
  | hash =>
      rw [phrasesAt_of_ne (by simp), phrasesFrom_cons_of_next? (by rfl)]
      by_cases hk : ∃ text, (rest.headD c.stop).kind = .identifier text
      · obtain ⟨text, hk⟩ := hk
        obtain ⟨q, more, rfl⟩ := exists_cons_of_headD_kind hk (by simp)
        rw [List.length_cons] at hr hs
        refine h.property fun s h => Finishes.done ?_
        exact finishes_finish h (by omega) (by omega) (phrasesFrom_cons_of_next? (by rfl))
      · have hi := not_exists.mp hk
        exact h.property_of_ne hi fun s h =>
          h.reports room (by omega)
            (phrasesFrom_of_stuck (by simp [Stage.start]) rfl (next?_property_eq_none hi))
  | dollar =>
      rw [phrasesAt_of_ne (by simp), phrasesFrom_cons_of_next? (by rfl)]
      refine h.peek (by simp) fun s h => ?_
      rw [List.drop_one, List.tail_cons]
      by_cases hk : (rest.headD c.stop).kind = .arrow
      · obtain ⟨q, more, rfl⟩ := exists_cons_of_headD_kind hk (by simp)
        rw [List.length_cons] at hr hs
        rw [if_pos hk]
        exact (finishes_map h (by omega) (by omega) (phrasesFrom_cons_of_next? (by rfl))).done
      · rw [if_neg hk]
        refine h.advance fun s h => Finishes.done ?_
        exact finishes_finish h (by omega) (by omega)
          (phrasesFrom_eq_complete rfl (next?_dollar_eq_none hk))
  | endOfInput => exact absurd rfl (h.hasNoEnd _ List.mem_cons_self)
  | _ =>
      rw [phrasesAt_of_ne (by simp)]
      exact h.unexpected fun s h =>
        h.reports room (by omega) (phrasesFrom_cons_of_none rfl fun _ => rfl)

/-- A phrase is read from at least one token. -/
lemma finishes_phrase (h : Facing c (token :: rest) outer inner s) :
    Finishes (Descent.phrase c.tokens) s
      (Reads c (phrasesFrom c.stop .start (token :: rest)) outer (inner + (rest.length + 1))
        rest.length) := by
  by_cases hk : token.kind = .dot
  · refine h.check_of_eq hk fun s h => h.unexpected fun s h =>
    h.reports _ (by omega) ?_
    exact phrasesFrom_cons_of_none (next?_step_eq_none (by simp [hk]) (by simp [hk]) (by simp [hk]))
      fun _ => rfl
  · refine h.check_of_ne hk fun s h => ?_
    exact finishes_turns (fun _ _ _ => finishes_phraseTurn)
      ⟨token :: rest, inner, h, rfl, by simp, by simp, by simp, phrasesAt_of_ne hk⟩

end Descent

end Reshape
