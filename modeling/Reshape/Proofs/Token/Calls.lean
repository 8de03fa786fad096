import Mathlib.Data.List.GetD
import Mathlib.Order.Monotone.Basic
import Reshape.Proofs.Token.Join

/-!
Tokens that are asked for one call after the other.

* `Cursor.afterCalls`: the place that a number of calls reach.
* `Cursor.IsIn`: a place in a text.
* `IsIn.next` and `offset_le_offset_next`: a call stays in the text and does not go back.
* `Cursor.halt`: what a call gives where no token begins.
* `next_afterCalls_texts`: calls give the tokens of a row of pieces, and then stay behind it.
* `outcomes_of_text`: calls against the tokens of the text, or of what stands in front of its first
  invalid character.
-/

namespace Reshape

namespace Cursor

variable {c : Cursor} {text : String} {count : Nat}

/-! ### Places -/

/-- The place that a number of calls of `next` reach. -/
def afterCalls (c : Cursor) : (calls : Nat) → Cursor
  | 0 => c
  | calls + 1 => c.next.2.afterCalls calls

/-- Each call is made at the place that the calls before it have reached. -/
lemma outcomes_eq_map (c : Cursor) (calls : Nat) :
    c.outcomes calls = (List.range calls).map fun i => (c.afterCalls i).next.1 := by
  induction calls generalizing c with
  | zero => rfl
  | succ calls ih =>
      rw [outcomes, ih, List.range_succ_eq_map, List.map_cons, List.map_map]
      rfl

lemma afterCalls_succ (c : Cursor) (calls : Nat) :
    c.afterCalls (calls + 1) = (c.afterCalls calls).next.2 := by
  induction calls generalizing c with
  | zero => rfl
  | succ calls ih => exact ih c.next.2

/-- The place is in the text: what is not yet read stands behind what is read. -/
def IsIn (text : String) (c : Cursor) : Prop :=
  c.offset ≤ text.length ∧ c.rest = text.toList.drop c.offset

lemma isIn_start (text : String) : (start text).IsIn text :=
  ⟨Nat.zero_le _, rfl⟩

lemma IsIn.advance (h : c.IsIn text) (hc : count ≤ c.rest.length) :
    (c.advance count).IsIn text := by
  obtain ⟨ho, hr⟩ := h
  rw [hr, List.length_drop, String.length_toList] at hc
  refine ⟨?_, ?_⟩
  · show c.offset + count ≤ text.length
    omega
  · rw [Cursor.advance, hr, List.drop_drop]

lemma advance_advance (c : Cursor) (first second : Nat) :
    (c.advance first).advance second = c.advance (first + second) := by
  simp [advance, Nat.add_assoc]

/-- A call goes on by no more characters than there are. -/
lemma exists_next_eq_advance (c : Cursor) :
    ∃ count, count ≤ c.rest.length ∧ c.next.2 = c.advance count := by
  have hb : (c.rest.takeWhile isBlank).length ≤ c.rest.length := (List.takeWhile_prefix _).length_le
  simp only [next]
  split
  · exact ⟨_, hb, rfl⟩
  · next first more hl =>
    split
    · have hp := lexeme_prefix c.skipBlanks.rest
      have hle := hp.length_le
      rw [hl, List.length_cons, skipBlanks, length_rest_advance] at hle
      exact ⟨_, by omega, advance_advance _ _ _⟩
    · exact ⟨_, hb, rfl⟩

/-- A call stays in the text. -/
lemma IsIn.next (h : c.IsIn text) : c.next.2.IsIn text := by
  obtain ⟨count, hc, hn⟩ := exists_next_eq_advance c
  exact hn ▸ h.advance hc

/-- A call does not go back. -/
lemma offset_le_offset_next (c : Cursor) : c.offset ≤ c.next.2.offset := by
  obtain ⟨count, -, hn⟩ := exists_next_eq_advance c
  rw [hn]
  exact Nat.le_add_right _ _

lemma IsIn.afterCalls (h : c.IsIn text) (calls : Nat) : (c.afterCalls calls).IsIn text := by
  induction calls generalizing c with
  | zero => exact h
  | succ calls ih => exact ih h.next

lemma monotone_offset_afterCalls (c : Cursor) : Monotone fun calls => (c.afterCalls calls).offset :=
  monotone_nat_of_le_succ fun calls => by
    rw [afterCalls_succ]
    exact offset_le_offset_next _

/-! ### Where no token begins -/

variable {blanks behind : List Char} {offset : Nat}

/-- What a call gives in front of characters that begin no token: the end of the input, or the
rejection of the first of them. -/
def halt (behind : List Char) (position : Nat) : Except Rejection Token :=
  match behind with
  | [] => .ok ⟨.endOfInput, position⟩
  | character :: _ => .error (.invalidCharacter character position)

lemma next_of_halt (hb : ∀ d ∈ blanks, isBlank d) (hs : ∀ d ∈ behind.head?, ¬ IsTextual d) :
    next ⟨offset, blanks ++ behind⟩ =
      (halt behind (offset + blanks.length), ⟨offset + blanks.length, behind⟩) := by
  cases behind with
  | nil =>
      rw [List.append_nil]
      exact next_of_blanks hb
  | cons first rest =>
      obtain ⟨hblank, hl, hk⟩ := lexeme_of_not_isTextual (hs first rfl) rest
      exact next_of_invalid hb hblank hl hk

/-- Where no token begins, all calls give the same. -/
lemma next_afterCalls_of_halt (hb : ∀ d ∈ blanks, isBlank d)
    (hs : ∀ d ∈ behind.head?, ¬ IsTextual d) (calls : Nat) :
    ((afterCalls ⟨offset, blanks ++ behind⟩ calls).next).1 =
      halt behind (offset + blanks.length) := by
  induction calls generalizing offset blanks with
  | zero => rw [afterCalls, next_of_halt hb hs]
  | succ calls ih =>
      rw [afterCalls, next_of_halt hb hs]
      -- from here on there are no blanks in front
      have hnil : ∀ d ∈ ([] : List Char), isBlank d := by simp
      exact ih hnil

end Cursor

namespace Piece

variable {own : List Piece} {blanks behind : List Char}

/-- The lexemes of a cut stay the longest ones when characters that begin no token follow. -/
lemma IsCut.isLongest_append {piece : Piece}
    (h : IsCut (piece :: (own ++ [⟨blanks, [], .endOfInput⟩])))
    (hs : ∀ c ∈ behind.head?, ¬ IsTextual c) :
    IsLongest piece.lexeme (piece.lexeme ++ (texts own ++ (blanks ++ behind))) := by
  obtain ⟨-, -, hlong, -⟩ := h.of_cons (by simp)
  rw [texts_append, texts_finish] at hlong
  rw [← List.append_assoc (texts own)]
  exact hlong.append_of_not_mem fun c hc longer _ _ ho hm => hs c hc (ho.isTextual c hm)

/-- Calls give the tokens of a row of pieces, and then what is given where no token begins. -/
lemma next_afterCalls_texts (h : IsCut (own ++ [⟨blanks, [], .endOfInput⟩]))
    (hs : ∀ c ∈ behind.head?, ¬ IsTextual c) (offset calls : Nat) :
    ((Cursor.afterCalls ⟨offset, texts own ++ (blanks ++ behind)⟩ calls).next).1 =
      ((tokens offset own).map Except.ok).getD calls
        (Cursor.halt behind (offset + (texts own ++ blanks).length)) := by
  induction own generalizing offset calls with
  | nil =>
      cases h with
      | finish hb => exact Cursor.next_afterCalls_of_halt hb hs calls
      | cons _ hl _ _ => exact absurd rfl hl.kind_ne_endOfInput
  | cons piece own ih =>
      rw [List.cons_append] at h
      obtain ⟨hb, hl, -, hc⟩ := h.of_cons (by simp)
      have hn : Cursor.next
          ⟨offset, piece.blanks ++ (piece.lexeme ++ (texts own ++ (blanks ++ behind)))⟩ = _ :=
        Cursor.next_of_lexemeIs hb (lexemeIs_iff.mpr ⟨hl, h.isLongest_append hs⟩)
      rw [texts_cons, List.append_assoc, List.append_assoc]
      cases calls with
      | zero =>
          rw [Cursor.afterCalls, hn]
          rfl
      | succ calls =>
          rw [Cursor.afterCalls, hn, ih hc, tokens, List.map_cons, List.getD_cons_succ]
          simp only [List.length_append, Nat.add_assoc]

end Piece

/-! ### Calls for the tokens of a text -/

/-- The members of a list and then always the same, as many as are asked for. -/
lemma map_getD_range {α : Type} (l : List α) (a : α) (count : Nat) :
    ((List.range count).map fun i => l.getD i a) = (l ++ List.replicate count a).take count := by
  refine List.ext_getElem (by simp) fun i hi _ => ?_
  rw [List.length_map, List.length_range] at hi
  rw [List.getElem_map, List.getElem_range, List.getElem_take, List.getElem_append]
  split
  · next hl => rw [List.getD_eq_getElem _ _ hl]
  · next hl => rw [List.getD_eq_default _ _ (by omega), List.getElem_replicate]

/-- Calls give certain outcomes first, one after the other, and then the same one for ever. -/
def Cursor.RepeatsAfter (c : Cursor) (first : List (Except Rejection Token))
    (last : Except Rejection Token) : Prop :=
  ∀ calls, c.outcomes calls = (first ++ List.replicate calls last).take calls

/-- The first of the repeated outcomes can be counted among the ones before it. -/
lemma Cursor.RepeatsAfter.concat {c : Cursor} {first : List (Except Rejection Token)}
    {last : Except Rejection Token} (h : c.RepeatsAfter first last) :
    c.RepeatsAfter (first ++ [last]) last := by
  intro calls
  rw [h calls, List.append_assoc, List.singleton_append, ← List.replicate_succ,
    List.take_append, List.take_append, List.take_replicate, List.take_replicate]
  congr 2
  omega

/-- Calls in a text of lexemes, and perhaps of characters behind them that begin no token. -/
lemma repeatsAfter_texts {text : String} {own : List Piece} {blanks behind : List Char}
    (h : Piece.IsCut (own ++ [⟨blanks, [], .endOfInput⟩]))
    (hs : ∀ c ∈ behind.head?, ¬ IsTextual c)
    (ht : text.toList = Piece.texts own ++ blanks ++ behind) :
    (Cursor.start text).RepeatsAfter ((Piece.tokens 0 own).map .ok)
      (Cursor.halt behind (Piece.texts own ++ blanks).length) := by
  intro calls
  rw [Cursor.outcomes_eq_map, ← map_getD_range]
  refine List.map_congr_left fun i _ => ?_
  rw [Cursor.start, ht, List.append_assoc, Piece.next_afterCalls_texts h hs, Nat.zero_add]

/-- **Calls one after the other.** In a text that has tokens, calls give these tokens, and then the
end of the input for ever. In any other text they give the tokens in front of the character that is
rejected, and then the rejection for ever: these are the tokens of the text that ends there, without
its end. The places that the calls reach are all in the text, and none of them goes back. -/
theorem outcomes_of_text (text : String) :
    (match Token.ofText text with
      | .ok tokens =>
        tokens.getLast? = some ⟨.endOfInput, text.length⟩
        ∧ (Cursor.start text).RepeatsAfter (tokens.map .ok) (.ok ⟨.endOfInput, text.length⟩)
      | .error rejection => ∃ body,
        Token.ofText (String.ofList (text.toList.take rejection.position)) =
          .ok (body ++ [⟨.endOfInput, rejection.position⟩])
        ∧ (Cursor.start text).RepeatsAfter (body.map .ok) (.error rejection))
    ∧ (∀ calls, (Cursor.start text).outcomes calls =
        (List.range calls).map fun i => ((Cursor.start text).afterCalls i).next.1)
    ∧ (∀ calls, ((Cursor.start text).afterCalls calls).IsIn text)
    ∧ Monotone fun calls => ((Cursor.start text).afterCalls calls).offset := by
  refine ⟨?_, Cursor.outcomes_eq_map _, (Cursor.isIn_start text).afterCalls,
    Cursor.monotone_offset_afterCalls _⟩
  split
  · next tokens h =>
      obtain ⟨body, rfl, -⟩ := exists_eq_concat_of_ofText h
      obtain ⟨own, blanks, hc, ht, rfl⟩ := isBody_iff.mp h
      have hnil : text.toList = Piece.texts own ++ blanks ++ [] := by rw [ht, List.append_nil]
      have hr := repeatsAfter_texts hc (by simp) hnil
      rw [ht, String.length_toList] at hr
      refine ⟨List.getLast?_concat, ?_⟩
      rw [List.map_append]
      exact hr.concat
  · next rejection h =>
      rcases Piece.exists_isCut_or_invalid text.toList with
        ⟨pieces, hc, ht⟩ | ⟨before, c, after, hs, hb, hn, he⟩
      · have hp := Piece.tokens_texts hc 0
        rw [ht] at hp
        exact absurd (h.symm.trans hp) (by simp)
      · obtain rfl := Except.error.inj (h.symm.trans (he 0))
        have hb : ∀ d ∈ (String.ofList before).toList, IsTextual d := by simpa using hb
        obtain ⟨body, hbody⟩ := exists_isBody hb
        obtain ⟨own, blanks, hc, ht, rfl⟩ := isBody_iff.mp hbody
        rw [String.toList_ofList] at ht
        have hstop : ∀ d ∈ (c :: after).head?, ¬ IsTextual d := by simpa using hn
        have hr := repeatsAfter_texts hc hstop (hs.trans (by rw [ht]))
        rw [ht] at hr
        refine ⟨Piece.tokens 0 own, ?_, ?_⟩
        · rw [Rejection.position, Nat.zero_add, hs, List.take_left, ← String.length_ofList]
          exact hbody
        · rw [Nat.zero_add]
          exact hr

end Reshape
