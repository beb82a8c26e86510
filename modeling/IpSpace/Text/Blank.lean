/-!
# Blank characters

The white space of Unicode: the characters that separate words and lines. Entries of a list are
trimmed of them and may have them around their separators.
-/

namespace IpSpace.Text

/-- Whether a character is white space. -/
def isBlank (c : Char) : Bool :=
  let n := c.toNat
  (0x09 ≤ n && n ≤ 0x0d) || n == 0x20 || n == 0x85 || n == 0xa0 || n == 0x1680 ||
    (0x2000 ≤ n && n ≤ 0x200a) || n == 0x2028 || n == 0x2029 || n == 0x202f || n == 0x205f ||
    n == 0x3000

/-- Everything that core counts as white space is blank. -/
theorem isBlank_of_isWhitespace {c : Char} (h : c.isWhitespace) : isBlank c := by
  simp only [Char.isWhitespace, Bool.or_eq_true, decide_eq_true_eq] at h
  rcases h with ((rfl | rfl) | rfl) | rfl <;> decide

/-- The characters without the blanks in front. -/
def trimFront (cs : List Char) : List Char :=
  cs.dropWhile isBlank

/-- The characters without the blanks at either end. -/
def trim (cs : List Char) : List Char :=
  (trimFront (trimFront cs).reverse).reverse

end IpSpace.Text
