import Reshape.Program.Descent
import Reshape.Proofs.Program.Layout

/-!
Descents, one step at a time.

* `Finishes`: something is read to its end, and its outcome and the state that it reaches have a
  property.
* `finishes_turns`: a loop comes to its end if a number gets smaller from turn to turn.
* `Course`: a list of tokens with a mark at the end of the input.
* `Facing`: the tokens that lie between the cursor and the mark, how many turns were made, and that
  nothing was read outside the list and no move went past the mark.
* `Facing.current`, `Facing.peek`, `Facing.advance` and the rules after them: what each step does to
  the tokens that lie ahead.
-/

namespace Reshape

namespace Descent

variable {α β σ : Type} {s : State} {Q : Except Halt α → State → Prop}

/-! ### Descents that come to their end -/

/-- From the state on, something is read to its end, and the outcome and the state that is reached
have the property. -/
def Finishes (x : Descent α) (s : State) (Q : Except Halt α → State → Prop) : Prop :=
  ∃ outcome reached, (outcome, reached) ∈ x.run.run s ∧ Q outcome reached

lemma finishes_pure {a : α} (h : Q (.ok a) s) : Finishes (pure a) s Q :=
  ⟨.ok a, s, Part.mem_some _, h⟩

lemma finishes_throw {halt : Halt} (h : Q (.error halt) s) : Finishes (throw halt) s Q :=
  ⟨.error halt, s, Part.mem_some _, h⟩

/-- There is one outcome only. -/
lemma Finishes.of_mem {x : Descent α} {outcome : Except Halt α} {reached : State}
    (h : Finishes x s Q) (hr : (outcome, reached) ∈ x.run.run s) : Q outcome reached := by
  obtain ⟨_, _, hx, hq⟩ := h
  obtain ⟨rfl, rfl⟩ := Prod.mk.inj (Part.mem_unique hr hx)
  exact hq

/-- What is read first gives a result, and then the rest is read. -/
lemma run_bind_of_run {x : Descent β} {f : β → Descent α} {b : β} {reached : State}
    (hx : x.run.run s = .some (.ok b, reached)) :
    (x >>= f).run.run s = (f b).run.run reached := by
  rw [ExceptT.run_bind, StateT.run_bind, hx]
  exact Part.bind_some _ _

lemma finishes_bind_of_run {x : Descent β} {f : β → Descent α} {b : β} {reached : State}
    (hx : x.run.run s = .some (.ok b, reached)) (hf : Finishes (f b) reached Q) :
    Finishes (x >>= f) s Q := by
  rw [Finishes, run_bind_of_run hx]
  exact hf

lemma Finishes.bind {x : Descent β} {f : β → Descent α} {R : Except Halt β → State → Prop}
    (hx : Finishes x s R) (hok : ∀ b s, R (.ok b) s → Finishes (f b) s Q)
    (herror : ∀ halt s, R (.error halt) s → Q (.error halt) s) : Finishes (x >>= f) s Q := by
  obtain ⟨outcome, reached, hr, h⟩ := hx
  cases outcome with
  | ok b => exact finishes_bind_of_run (Part.eq_some_iff.mpr hr) (hok b reached h)
  | error halt =>
      refine ⟨.error halt, reached, ?_, herror halt reached h⟩
      rw [ExceptT.run_bind, StateT.run_bind]
      exact Part.mem_bind_iff.mpr ⟨_, hr, Part.mem_some _⟩

/-! ### Loops that come to their end -/

/-- Where a turn asks for another one, the loop goes on from there. -/
lemma run_turns_of_again {turn : σ → Descent (Turn σ α)} {x next : σ} {reached : State}
    (h : (.ok (.again next), reached) ∈ (turn x).run.run s) :
    (turns turn x).run.run s = (turns turn next).run.run reached := by
  refine PFun.fix_fwd_eq ?_
  exact Part.mem_map Turn.follow h

/-- What a turn that ends a loop leaves is what the loop leaves. -/
lemma mem_run_turns {turn : σ → Descent (Turn σ α)} {x : σ} {outcome : Except Halt (Turn σ α)}
    {reached : State} {last : Except Halt α × State} (h : (outcome, reached) ∈ (turn x).run.run s)
    (hf : Turn.follow (outcome, reached) = .inl last) : last ∈ (turns turn x).run.run s := by
  refine PFun.fix_stop ?_
  rw [← hf]
  exact Part.mem_map Turn.follow h

/-- What a turn leads to: a place from which there is another turn, or the end of the loop. -/
def Turn.Leads (Again : σ → State → Prop) (Q : Except Halt α → State → Prop) :
    Except Halt (Turn σ α) → State → Prop
  | .ok (.again next), s => Again next s
  | .ok (.done result), s => Q (.ok result) s
  | .error halt, s => Q (.error halt) s

/-- A loop ends with the result of what is read last. -/
lemma Finishes.done {Again : σ → State → Prop} {x : Descent α} (h : Finishes x s Q) :
    Finishes (do return Turn.done (← x)) s (Turn.Leads Again Q) :=
  h.bind (fun _ _ hb => finishes_pure hb) fun _ _ hb => hb

/-- A loop comes to its end if a number gets smaller from turn to turn. -/
lemma finishes_turns {turn : σ → Descent (Turn σ α)} {At : Nat → σ → State → Prop}
    (h : ∀ n x s, At n x s → Finishes (turn x) s (Turn.Leads (fun y s => ∃ k < n, At k y s) Q))
    {n : Nat} {x : σ} (hx : At n x s) : Finishes (turns turn x) s Q := by
  induction n using Nat.strongRecOn generalizing x s with
  | _ n ih =>
      obtain ⟨outcome, reached, hr, ho⟩ := h n x s hx
      match outcome, ho with
      | .ok (.again y), ⟨k, hk, hy⟩ =>
          rw [Finishes, run_turns_of_again hr]
          exact ih k hk hy
      | .ok (.done a), ho => exact ⟨.ok a, reached, mem_run_turns hr rfl, ho⟩
      | .error halt, ho => exact ⟨.error halt, reached, mem_run_turns hr rfl, ho⟩

/-! ### Single steps -/

section Run

variable {tokens : List Token} {token : Token} {offset : Nat}

lemma run_get (s : State) : (get : Descent State).run.run s = .some (.ok s, s) :=
  Part.bind_some (s, s) fun x => .some ((.ok x.1 : Except Halt State), x.2)

lemma run_modify (f : State → State) (s : State) :
    (modify f : Descent Unit).run.run s = .some (.ok (), f s) :=
  Part.bind_some ((), f s) fun x => .some ((.ok x.1 : Except Halt Unit), x.2)

lemma run_note (event : Event) (s : State) :
    (note event).run.run s = .some (.ok (), ⟨s.cursor, event :: s.record⟩) :=
  run_modify _ s

lemma run_peek (h : tokens[min (s.cursor + offset) (tokens.length - 1)]? = some token) :
    (peek tokens offset).run.run s =
      .some (.ok token,
        ⟨s.cursor, .read (min (s.cursor + offset) (tokens.length - 1)) :: s.record⟩) := by
  rw [peek, run_bind_of_run (run_get s), run_bind_of_run (run_note _ s), h]
  rfl

lemma run_advance (h : s.cursor < tokens.length - 1) :
    (advance tokens).run.run s =
      .some (.ok (), ⟨s.cursor + 1, .move (s.cursor + 1) :: s.record⟩) := by
  rw [advance, run_bind_of_run (run_get s), if_pos h, run_bind_of_run (run_modify _ s), run_note]

end Run

/-! ### What lies ahead -/

/-- The number of turns of a loop that have begun. -/
def State.turns (s : State) (loop : Loop) : Nat :=
  s.record.count (.turn loop)

/-- What is recorded is read in a list of a given length and does not move past a given place. -/
def Event.IsWithin (length stop : Nat) : Event → Prop
  | .read place => place < length
  | .move place => place ≤ stop
  | .turn _ => True

/-- A list of tokens with a mark at the end of the input, tokens that lie beyond it, and a record
that is given at the start. -/
structure Course where
  /-- The tokens. -/
  tokens : List Token
  /-- The mark at the end of the input. -/
  stop : Token
  /-- The tokens behind the mark. -/
  beyond : List Token
  /-- The record at the start. -/
  past : List Event
  /-- The mark is one. -/
  kind_stop : stop.kind = .endOfInput

/-- The place of the mark. -/
def Course.place (c : Course) : Nat :=
  c.tokens.length - c.beyond.length - 1

/-- The cursor stands in front of tokens behind which there is the mark, a number of turns was made
in the loop over phrases and in the loops over steps, and what was done since the start stays in
the list and in front of the mark. -/
structure Facing (c : Course) (rest : List Token) (outer inner : Nat) (s : State) : Prop where
  /-- The tokens from the cursor on. -/
  drop_cursor : c.tokens.drop s.cursor = rest ++ c.stop :: c.beyond
  /-- The end of the input is not marked before. -/
  hasNoEnd : HasNoEnd rest
  /-- The turns of the loop over phrases. -/
  turns_program : s.turns .program = outer
  /-- The turns of the loops over steps. -/
  turns_inner : s.turns .phrase + s.turns .map = inner
  /-- What was done since the start. -/
  within : ∀ event ∈ s.record, event ∈ c.past ∨ event.IsWithin c.tokens.length c.place

/-- The tokens end here or a separator follows. -/
def AtEnd (rest : List Token) : Prop :=
  ∀ token ∈ rest.head?, token.kind = .semicolon

namespace Facing

variable {c : Course} {token : Token} {rest : List Token} {outer inner : Nat} {kind : Token.Kind}

/-- The tokens ahead, the mark and the tokens beyond it make up the list from the cursor on. -/
lemma cursor_add (h : Facing c rest outer inner s) :
    s.cursor + rest.length + c.beyond.length + 1 = c.tokens.length := by
  have hd := congrArg List.length h.drop_cursor
  rw [List.length_drop, List.length_append, List.length_cons] at hd
  omega

lemma cursor_add_eq_place (h : Facing c rest outer inner s) :
    s.cursor + rest.length = c.place := by
  have hc := h.cursor_add
  rw [Course.place]
  omega

/-- The token some places behind the cursor is one of those ahead or the mark. -/
lemma getElem?_eq (h : Facing c rest outer inner s) {offset : Nat} (ho : offset ≤ rest.length) :
    c.tokens[min (s.cursor + offset) (c.tokens.length - 1)]? =
      some ((rest.drop offset).headD c.stop) := by
  have hc := h.cursor_add
  rw [Nat.min_eq_left (by omega), ← List.getElem?_drop, h.drop_cursor]
  rcases Nat.lt_or_eq_of_le ho with hlt | rfl
  · rw [List.getElem?_append_left hlt, List.drop_eq_getElem_cons hlt,
      List.getElem?_eq_getElem hlt, List.headD_cons]
  · rw [List.getElem?_append_right (Nat.le_refl _), Nat.sub_self, List.drop_length]
    rfl

/-- What is done may be recorded if it is no turn and stays within its bounds. -/
lemma cons_record (h : Facing c rest outer inner s) {event : Event}
    (ht : ∀ loop, event ≠ .turn loop) (hw : event.IsWithin c.tokens.length c.place) :
    Facing c rest outer inner ⟨s.cursor, event :: s.record⟩ where
  drop_cursor := h.drop_cursor
  hasNoEnd := h.hasNoEnd
  turns_program := by
    rw [State.turns, List.count_cons_of_ne (ht _)]
    exact h.turns_program
  turns_inner := by
    rw [State.turns, State.turns, List.count_cons_of_ne (ht _), List.count_cons_of_ne (ht _)]
    exact h.turns_inner
  within := List.forall_mem_cons.mpr ⟨.inr hw, h.within⟩

/-- A turn of the loop over phrases begins. -/
lemma note_program (h : Facing c rest outer inner s) {f : Unit → Descent α}
    (hf : ∀ s, Facing c rest (outer + 1) inner s → Finishes (f ()) s Q) :
    Finishes (note (.turn .program) >>= f) s Q := by
  refine finishes_bind_of_run (run_note _ s) (hf _ ⟨h.drop_cursor, h.hasNoEnd, ?_, ?_, ?_⟩)
  · rw [← h.turns_program]
    exact List.count_cons_self
  · rw [← h.turns_inner, State.turns, State.turns, List.count_cons_of_ne (by simp),
      List.count_cons_of_ne (by simp)]
    rfl
  · exact List.forall_mem_cons.mpr ⟨.inr trivial, h.within⟩

/-- A turn of a loop over steps begins. -/
lemma note_inner (h : Facing c rest outer inner s) {loop : Loop} (hl : loop ≠ .program)
    {f : Unit → Descent α} (hf : ∀ s, Facing c rest outer (inner + 1) s → Finishes (f ()) s Q) :
    Finishes (note (.turn loop) >>= f) s Q := by
  refine finishes_bind_of_run (run_note _ s) (hf _ ⟨h.drop_cursor, h.hasNoEnd, ?_, ?_, ?_⟩)
  · rw [← h.turns_program]
    exact List.count_cons_of_ne (by simpa using hl)
  · rw [← h.turns_inner]
    cases loop with
    | program => exact absurd rfl hl
    | phrase => simp [State.turns]; omega
    | map => simp [State.turns]; omega
  · exact List.forall_mem_cons.mpr ⟨.inr trivial, h.within⟩

/-- A token ahead is read, or the mark where there are not so many tokens. -/
lemma peek (h : Facing c rest outer inner s) {offset : Nat} (ho : offset ≤ rest.length)
    {f : Token → Descent α}
    (hf : ∀ s, Facing c rest outer inner s → Finishes (f ((rest.drop offset).headD c.stop)) s Q) :
    Finishes (peek c.tokens offset >>= f) s Q := by
  have hc := h.cursor_add
  refine finishes_bind_of_run (run_peek (h.getElem?_eq ho)) (hf _ (h.cons_record (by simp) ?_))
  rw [Event.IsWithin]
  omega

lemma current (h : Facing c rest outer inner s) {f : Token → Descent α}
    (hf : ∀ s, Facing c rest outer inner s → Finishes (f (rest.headD c.stop)) s Q) :
    Finishes (current c.tokens >>= f) s Q :=
  h.peek (Nat.zero_le _) hf

/-- The cursor moves behind the first token ahead. -/
lemma advance (h : Facing c (token :: rest) outer inner s) {f : Unit → Descent α}
    (hf : ∀ s, Facing c rest outer inner s → Finishes (f ()) s Q) :
    Finishes (advance c.tokens >>= f) s Q := by
  have hc := h.cursor_add
  have hp := h.cursor_add_eq_place
  rw [List.length_cons] at hc hp
  have hm : Facing c (token :: rest) outer inner ⟨s.cursor, .move (s.cursor + 1) :: s.record⟩ :=
    h.cons_record (by simp) (by rw [Event.IsWithin]; omega)
  refine finishes_bind_of_run (run_advance (by omega)) (hf _ ⟨?_, ?_, ?_, ?_, ?_⟩)
  · rw [← List.drop_drop, h.drop_cursor]
    rfl
  · exact (List.forall_mem_cons.mp h.hasNoEnd).2
  · exact hm.turns_program
  · exact hm.turns_inner
  · exact hm.within

/-! ### Decisions -/

section Check

variable {x y : Descent α}

lemma check (h : Facing c rest outer inner s) {f : Bool → Descent α}
    (hf : ∀ s, Facing c rest outer inner s →
      Finishes (f (decide ((rest.headD c.stop).kind = kind))) s Q) :
    Finishes (check c.tokens kind >>= f) s Q := by
  rw [Descent.check, bind_assoc]
  refine h.current fun s h => ?_
  rw [pure_bind]
  exact hf s h

lemma check_of_eq (h : Facing c rest outer inner s) (hk : (rest.headD c.stop).kind = kind)
    (hx : ∀ s, Facing c rest outer inner s → Finishes x s Q) :
    Finishes (do if ← Descent.check c.tokens kind then x else y) s Q := by
  refine h.check fun s h => ?_
  rw [decide_eq_true hk, if_pos rfl]
  exact hx s h

lemma check_of_ne (h : Facing c rest outer inner s) (hk : (rest.headD c.stop).kind ≠ kind)
    (hy : ∀ s, Facing c rest outer inner s → Finishes y s Q) :
    Finishes (do if ← Descent.check c.tokens kind then x else y) s Q := by
  refine h.check fun s h => ?_
  rw [decide_eq_false hk, if_neg Bool.false_ne_true]
  exact hy s h

/-- At the end of a phrase it is decided that the phrase ends. -/
lemma atPhraseEnd_of_atEnd (h : Facing c rest outer inner s) (he : AtEnd rest)
    (hx : ∀ s, Facing c rest outer inner s → Finishes x s Q) :
    Finishes (do if ← atPhraseEnd c.tokens then x else y) s Q := by
  rw [atPhraseEnd, bind_assoc]
  refine h.check fun s h => ?_
  cases rest with
  | nil =>
      rw [List.headD_nil, c.kind_stop]
      refine h.check fun s h => ?_
      rw [List.headD_nil, c.kind_stop]
      exact hx s h
  | cons token rest =>
      rw [List.headD_cons, decide_eq_true (he token rfl), if_pos rfl, pure_bind, if_pos rfl]
      exact hx s h

/-- At another token it is decided that the phrase goes on. -/
lemma atPhraseEnd_of_ne (h : Facing c (token :: rest) outer inner s) (hk : token.kind ≠ .semicolon)
    (hy : ∀ s, Facing c (token :: rest) outer inner s → Finishes y s Q) :
    Finishes (do if ← atPhraseEnd c.tokens then x else y) s Q := by
  rw [atPhraseEnd, bind_assoc]
  refine h.check fun s h => ?_
  rw [List.headD_cons, decide_eq_false hk]
  refine h.check fun s h => ?_
  rw [List.headD_cons, decide_eq_false (h.hasNoEnd token List.mem_cons_self)]
  exact hy s h

end Check

/-- The current token is reported. -/
lemma unexpected (h : Facing c rest outer inner s)
    (hq : ∀ s, Facing c rest outer inner s →
      Q (.error (.rejected (.unexpectedToken (rest.headD c.stop)))) s) :
    Finishes (Descent.unexpected c.tokens) s Q :=
  h.current fun s h => finishes_throw (hq s h)

/-- Nothing is read behind a token that is reported. -/
lemma unexpected_bind (h : Facing c rest outer inner s)
    (hq : ∀ s, Facing c rest outer inner s →
      Q (.error (.rejected (.unexpectedToken (rest.headD c.stop)))) s) {f : β → Descent α} :
    Finishes (Descent.unexpected c.tokens >>= f) s Q := by
  have hu : Finishes (Descent.unexpected c.tokens : Descent β) s
      fun outcome s => ∃ halt, outcome = .error halt ∧ Q (.error halt) s :=
    h.unexpected fun s h => ⟨_, rfl, hq s h⟩
  refine hu.bind ?_ ?_
  · rintro b s ⟨halt, hb, -⟩
    cases hb
  · rintro halt s ⟨_, hh, hq⟩
    cases hh
    exact hq

end Facing

end Descent

end Reshape
