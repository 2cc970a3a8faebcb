import LatexLogic.Token.Basic
import LatexLogic.Text.Blank

/-!
# Splitting a text into tokens

The text is read character by character. A backslash opens a control sequence. Letters then make up
a control word, which the first other character ends; a character other than a letter right after
the backslash makes up a control sequence of its own, blanks and the backslash included. Outside
control sequences blanks are skipped and every other character is a lexeme.

`scan` keeps what it has to know of the text before: nothing, or the letters since the backslash.
-/

set_option autoImplicit false

namespace LatexLogic

/-- Letters that make up control words. -/
def isControlLetter (c : Char) : Bool :=
  ('a' ≤ c && c ≤ 'z') || ('A' ≤ c && c ≤ 'Z')

namespace Lexeme

mutual

/-- The lexemes of a text outside a control sequence. -/
def scan : List Char → List Lexeme
  | [] => []
  | c :: cs =>
    if c = '\\' then scanControl [] cs
    else if Text.isBlank c then scan cs
    else .char c :: scan cs

/-- The lexemes of a text inside a control sequence, whose letters so far are given in reverse. -/
def scanControl (letters : List Char) : List Char → List Lexeme
  | [] => [.control (String.ofList letters.reverse)]
  | c :: cs =>
    if isControlLetter c then scanControl (c :: letters) cs
    else if letters.isEmpty then .control (String.singleton c) :: scan cs
    -- The word is at its end, and the character is read like any other outside one.
    else
      .control (String.ofList letters.reverse) ::
        (if c = '\\' then scanControl [] cs
        else if Text.isBlank c then scan cs
        else .char c :: scan cs)

end

end Lexeme

/-- The tokens of a text. -/
def tokenize (table : Table) (text : String) : List Token :=
  (Lexeme.scan text.toList).map (Token.ofLexeme table)

end LatexLogic
