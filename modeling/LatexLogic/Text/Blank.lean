/-!
# Blank characters

The white space of formulas and of input files. A blank between two tokens is skipped, a text of
blanks only is an empty formula, and blanks at the two ends of an input line are cut off.

The set is the Unicode white space together with the four information separators U+001C to U+001F.
It is wider than the set of `Char.isWhitespace`, which it contains (`isBlank_of_isWhitespace`).
-/

set_option autoImplicit false

namespace LatexLogic.Text

/-- The blank characters, by code point. -/
def blankRanges : List (Nat × Nat) :=
  [(0x09, 0x0D), (0x1C, 0x20), (0x85, 0x85), (0xA0, 0xA0), (0x1680, 0x1680), (0x2000, 0x200A),
   (0x2028, 0x2029), (0x202F, 0x202F), (0x205F, 0x205F), (0x3000, 0x3000)]

/-- A character is blank when its code point lies in one of the ranges. -/
def isBlank (c : Char) : Bool :=
  blankRanges.any fun range => range.1 ≤ c.toNat && c.toNat ≤ range.2

/-- Every white space character of the core library is blank. -/
theorem isBlank_of_isWhitespace {c : Char} (h : c.isWhitespace = true) : isBlank c = true := by
  simp only [Char.isWhitespace, Bool.or_eq_true, decide_eq_true_eq] at h
  rcases h with ((rfl | rfl) | rfl) | rfl <;> decide

/-- Cuts the blanks off the front. -/
def trimStart (cs : List Char) : List Char :=
  cs.dropWhile isBlank

/-- Cuts the blanks off both ends; blanks in between stay. -/
def trim (cs : List Char) : List Char :=
  (trimStart (trimStart cs).reverse).reverse

/-- The text without the blanks at its two ends. -/
def strip (text : String) : String :=
  String.ofList (trim text.toList)

end LatexLogic.Text
