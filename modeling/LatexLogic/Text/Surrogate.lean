/-!
# Surrogate code points

An escape can name any code point, also one of the surrogates U+D800 to U+DFFF, which on its own is
no character. A text keeps such a code point as the private character that lies 0x100000 above it.
`Text.ofCodePoint` and `Text.codePoint` lead from one to the other.
-/

set_option autoImplicit false

namespace LatexLogic.Text

/-- Whether a code point is a surrogate. -/
def isSurrogate (n : Nat) : Bool :=
  0xD800 ≤ n && n < 0xE000

/-- How far a surrogate lies below the character that is kept for it. -/
def surrogateShift : Nat := 0x100000

/-- The character that a text keeps for a code point. -/
def ofCodePoint (n : Nat) : Char :=
  Char.ofNat (if isSurrogate n then n + surrogateShift else n)

/-- Whether a character is kept for a surrogate. -/
def isStandIn (c : Char) : Bool :=
  surrogateShift ≤ c.toNat && isSurrogate (c.toNat - surrogateShift)

/-- The code point for which a text keeps a character. -/
def codePoint (c : Char) : Nat :=
  if isStandIn c then c.toNat - surrogateShift else c.toNat

end LatexLogic.Text
