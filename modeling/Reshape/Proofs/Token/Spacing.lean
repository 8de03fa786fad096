import Mathlib.Data.List.Chain
import Reshape.Proofs.Token.Reading

/-!
Texts made of the texts of tokens with blanks around them.

* `spacedText`: the texts of kinds of tokens, with blanks in front of each and at the end.
* `placedTokens`: these kinds with the offsets that they have in that text.
* `Token.Kind.MayMeet`: the text of a kind does not get longer where another one follows.
* `tokens_spacedText`: the tokens of such a text are those kinds at those offsets, however wide the
  blanks are.
-/

namespace Reshape

/-- The texts of kinds of tokens with blanks between them: `gap i` in front of the `i`-th one, and
the last gap behind them all. -/
def spacedText (gap : Nat → List Char) : List Token.Kind → List Char
  | [] => gap 0
  | kind :: rest => gap 0 ++ (kind.text.toList ++ spacedText (fun i => gap (i + 1)) rest)

/-- The kinds as tokens, each at its offset in `spacedText`, when that text begins at `offset`. -/
def placedTokens (gap : Nat → List Char) (offset : Nat) : List Token.Kind → List Token
  | [] => []
  | kind :: rest =>
    ⟨kind, offset + (gap 0).length⟩ ::
      placedTokens (fun i => gap (i + 1)) (offset + (gap 0).length + kind.text.toList.length) rest

@[simp] lemma map_kind_placedTokens (gap : Nat → List Char) (offset : Nat)
    (kinds : List Token.Kind) : (placedTokens gap offset kinds).map Token.kind = kinds := by
  induction kinds generalizing gap offset with
  | nil => rfl
  | cons kind rest ih => rw [placedTokens, List.map_cons, ih]

namespace Token.Kind

/-- The text of a kind does not get longer where the text of another one follows. -/
def MayMeet (kind next : Token.Kind) : Prop :=
  ∀ c ∈ next.text.toList.head?, kind.Continues c = false

/-- A blank makes no text longer. -/
lemma continues_eq_false_of_isBlank (kind : Token.Kind) {c : Char} (h : isBlank c) :
    kind.Continues c = false := by
  have ha : c.isAlphanum = false := by
    by_contra hc
    rw [isBlank_eq_false_of_isAlphanum (by simpa using hc)] at h
    exact absurd h (by simp)
  have hd : c.isDigit = false := (Bool.or_eq_false_iff.mp ha).2
  have hp : c ≠ '.' := by
    rintro rfl
    exact absurd h (by decide)
  cases kind <;> simp [Continues, ha, hd, hp]

/-- The text of a legible kind is not empty. -/
lemma IsLegible.text_ne_nil {kind : Token.Kind} (h : kind.IsLegible) : kind.text.toList ≠ [] := by
  have hs : ∀ c ∈ ([] : List Char).head?, kind.Continues c = false := by simp
  obtain ⟨-, first, more, ht, -⟩ := lexemeIs_text h hs
  rw [ht]
  exact List.cons_ne_nil first more

end Token.Kind

/-- Behind the text of a kind, nothing makes it longer. -/
lemma continues_head_spacedText {kind : Token.Kind} {kinds : List Token.Kind}
    {gap : Nat → List Char} (hg : ∀ i, ∀ c ∈ gap i, isBlank c)
    (hl : ∀ next ∈ kinds, next.IsLegible) (hm : ∀ next ∈ kinds.head?, kind.MayMeet next) :
    ∀ c ∈ (spacedText gap kinds).head?, kind.Continues c = false := by
  intro c hc
  cases hb : gap 0 with
  | cons blank blanks =>
      have hh : c = blank := by
        cases kinds <;> simpa [spacedText, hb, eq_comm] using hc
      have hblank : isBlank blank := hg 0 blank (by rw [hb]; exact List.mem_cons_self)
      rw [hh]
      exact kind.continues_eq_false_of_isBlank hblank
  | nil =>
      cases kinds with
      | nil => simp [spacedText, hb] at hc
      | cons next rest =>
          have hn := (hl next List.mem_cons_self).text_ne_nil
          rw [spacedText, hb, List.nil_append, List.head?_append_of_ne_nil _ hn] at hc
          exact hm next rfl c hc

/-- **Tokens of spaced texts**: the blanks do not matter, and each token stands at its offset. -/
lemma tokens_spacedText {kinds : List Token.Kind} {gap : Nat → List Char}
    (hg : ∀ i, ∀ c ∈ gap i, isBlank c) (hl : ∀ kind ∈ kinds, kind.IsLegible)
    (hm : kinds.IsChain Token.Kind.MayMeet) (offset : Nat) :
    Cursor.tokens ⟨offset, spacedText gap kinds⟩ =
      .ok (placedTokens gap offset kinds
        ++ [⟨.endOfInput, offset + (spacedText gap kinds).length⟩]) := by
  induction kinds generalizing gap offset with
  | nil => exact Cursor.tokens_of_end (Cursor.next_of_blanks (hg 0)) rfl
  | cons kind rest ih =>
      obtain ⟨hk, hr⟩ := List.forall_mem_cons.mp hl
      have hg' : ∀ i, ∀ c ∈ gap (i + 1), isBlank c := fun i => hg (i + 1)
      have hs := continues_head_spacedText hg' hr (List.isChain_cons.mp hm).1
      have hn : Cursor.next ⟨offset, gap 0 ++ (kind.text.toList ++ spacedText _ rest)⟩ = _ :=
        Cursor.next_of_lexemeIs (hg 0) (Token.Kind.lexemeIs_text hk hs)
      have he : kind ≠ .endOfInput := by
        rintro rfl
        exact hk
      rw [spacedText, Cursor.tokens_of_token hn he, ih hg' hr (List.isChain_cons.mp hm).2]
      simp [placedTokens, Nat.add_assoc]

end Reshape
