/-!
Blank characters.

* `isBlank`: the characters with the property `White_Space`, which separate tokens.
* `isBlank_of_isWhitespace`: the blanks of plain text are among them.
-/

namespace Reshape

/-- Whether a character has the property `White_Space`: the controls from tab to carriage return,
the space, the next-line control, the no-break space and the spaces and separators of the other
blocks. -/
def isBlank (c : Char) : Bool :=
  let n := c.toNat
  (0x9 ≤ n && n ≤ 0xd) || n = 0x20 || n = 0x85 || n = 0xa0 || n = 0x1680 ||
    (0x2000 ≤ n && n ≤ 0x200a) || n = 0x2028 || n = 0x2029 || n = 0x202f || n = 0x205f ||
    n = 0x3000

/-- Space, tab, line feed and carriage return are blank. -/
theorem isBlank_of_isWhitespace {c : Char} (h : c.isWhitespace) : isBlank c := by
  simp only [Char.isWhitespace, Bool.or_eq_true, decide_eq_true_eq] at h
  obtain ((rfl | rfl) | rfl) | rfl := h <;> rfl

end Reshape
