import Reshape.Rejection
import Reshape.Text.Blank
import Reshape.Token.Lexeme

/-!
The tokens of a text.

* `Cursor`: a place in a text.
* `Cursor.next`: the next token, and the place after it.
* `Cursor.tokens`: the tokens from a place on, up to the end of the input.
* `Token.ofText`: the tokens of a text.
-/

namespace Reshape

/-- A place in a text: how many characters are read, and those that are not. -/
structure Cursor where
  /-- The number of characters read. -/
  offset : Nat
  /-- The characters not yet read. -/
  rest : List Char
deriving DecidableEq

namespace Cursor

/-- The start of a text. -/
def start (text : String) : Cursor :=
  ⟨0, text.toList⟩

/-- The place a number of characters further on. -/
def advance (c : Cursor) (count : Nat) : Cursor :=
  ⟨c.offset + count, c.rest.drop count⟩

/-- The place after the blanks. -/
def skipBlanks (c : Cursor) : Cursor :=
  c.advance (c.rest.takeWhile isBlank).length

/-- The token after the blanks, and the place after it. At an invalid character the place stays in
front of that character, and at the end of the input it stays at the end. -/
def next (c : Cursor) : Except Rejection Token × Cursor :=
  let here := c.skipBlanks
  match lexeme here.rest with
  | [] => (.ok ⟨.endOfInput, here.offset⟩, here)
  | first :: rest =>
    match lexemeKind? first rest with
    | some kind => (.ok ⟨kind, here.offset⟩, here.advance (rest.length + 1))
    | none => (.error (.invalidCharacter first here.offset), here)

/-- The outcomes of a number of calls of `next`, one after the other. -/
def outcomes (c : Cursor) : (calls : Nat) → List (Except Rejection Token)
  | 0 => []
  | calls + 1 => c.next.1 :: c.next.2.outcomes calls

/-- Going on takes characters away. -/
theorem length_rest_advance (c : Cursor) (count : Nat) :
    (c.advance count).rest.length = c.rest.length - count :=
  List.length_drop

/-- A token other than the end of the input takes up characters. -/
theorem length_rest_next_lt {c after : Cursor} {token : Token}
    (h : c.next = (.ok token, after)) (hk : token.kind ≠ .endOfInput) :
    after.rest.length < c.rest.length := by
  have hle : c.skipBlanks.rest.length ≤ c.rest.length := by
    rw [skipBlanks, length_rest_advance]
    exact Nat.sub_le _ _
  simp only [next] at h
  split at h
  · simp only [Prod.mk.injEq, Except.ok.injEq] at h
    exact absurd (h.1 ▸ rfl) hk
  · next first rest hl =>
    split at h
    · simp only [Prod.mk.injEq, Except.ok.injEq] at h
      have hpos : 0 < c.skipBlanks.rest.length := by
        cases hr : c.skipBlanks.rest with
        | nil => simp [hr, lexeme] at hl
        | cons _ _ => exact Nat.succ_pos _
      rw [← h.2, length_rest_advance]
      omega
    · simp only [Prod.mk.injEq, reduceCtorEq, false_and] at h

/-- The tokens from a place on. The end of the input comes last. -/
def tokens (c : Cursor) : Except Rejection (List Token) :=
  match h : c.next with
  | (.error rejection, _) => .error rejection
  | (.ok token, after) =>
    if hk : token.kind = .endOfInput then .ok [token]
    else
      have := length_rest_next_lt h hk
      (token :: ·) <$> after.tokens
termination_by c.rest.length

end Cursor

/-- The tokens of a text. -/
def Token.ofText (text : String) : Except Rejection (List Token) :=
  (Cursor.start text).tokens

end Reshape
