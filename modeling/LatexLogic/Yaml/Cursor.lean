/-!
# Reading YAML characters

A cursor stands in a text and knows its line and column. The readers of this module move it over
white space, comments and line ends. A line ends at a line feed or a next-line character, which both
count as a line feed, and at the two Unicode separators, which stand for themselves.
-/

set_option autoImplicit false

namespace LatexLogic.Yaml

/-- A place in a text. -/
structure Cursor where
  /-- The characters that are left. -/
  rest : List Char
  /-- How many characters were passed. -/
  index : Nat
  /-- How many lines were passed. -/
  line : Nat
  /-- How many characters of the line were passed. -/
  column : Nat

/-- The characters that end a line. -/
def isBreak (c : Char) : Bool :=
  c = '\n' || c = '\x85' || c = '\u2028' || c = '\u2029'

/-- The characters that separate words. -/
def isSeparator (c : Char) : Bool :=
  c = ' ' || c = '\t' || isBreak c

/-- Whether a word can end before the given character. -/
def endsWord : Option Char → Bool
  | none => true
  | some c => isSeparator c

/-- The mark that a text may begin with, which takes no column. -/
def byteOrderMark : Char := '\uFEFF'

namespace Cursor

/-- The cursor at the start of a text. -/
def start (text : List Char) : Cursor := ⟨text, 0, 0, 0⟩

/-- The cursor one character further. -/
def forward (p : Cursor) : Cursor :=
  match p.rest with
  | [] => p
  | c :: cs =>
    if isBreak c then ⟨cs, p.index + 1, p.line + 1, 0⟩
    else ⟨cs, p.index + 1, p.line, if c = byteOrderMark then p.column else p.column + 1⟩

/-- The cursor a number of characters further. -/
def skip (p : Cursor) : Nat → Cursor
  | 0 => p
  | n + 1 => p.forward.skip n

/-- The next character. -/
def peek (p : Cursor) : Option Char :=
  p.rest.head?

/-- The character after a number of others. -/
def peekAt (p : Cursor) (n : Nat) : Option Char :=
  p.rest[n]?

/-- The characters in front that satisfy a condition, and the cursor behind them. -/
def takeWhile (p : Cursor) (condition : Char → Bool) : List Char × Cursor :=
  let taken := p.rest.takeWhile condition
  (taken, p.skip taken.length)

/-- The cursor behind the characters that satisfy a condition. -/
def skipWhile (p : Cursor) (condition : Char → Bool) : Cursor :=
  (p.takeWhile condition).2

/-- The line end at the cursor, as it counts, and the cursor behind it. -/
def takeBreak? (p : Cursor) : Option (Char × Cursor) :=
  match p.peek with
  | some c =>
    if c = '\n' || c = '\x85' then some ('\n', p.forward)
    else if isBreak c then some (c, p.forward)
    else none
  | none => none

/-- Whether a mark that separates documents stands at the cursor. -/
def atDocumentMark (p : Cursor) : Bool :=
  (p.rest.take 3 = ['-', '-', '-'] || p.rest.take 3 = ['.', '.', '.']) && endsWord (p.peekAt 3)

/-- How many characters of white space and comments stand in front, and whether a line ends among
them. -/
def gap (inComment : Bool) : List Char → Nat × Bool
  | [] => (0, false)
  | c :: cs =>
    if isBreak c then ((gap false cs).1 + 1, true)
    else if inComment || c = ' ' then
      let (n, ended) := gap inComment cs
      (n + 1, ended)
    else if c = '#' then
      let (n, ended) := gap true cs
      (n + 1, ended)
    else (0, false)

end Cursor

/-- How a line end inside a scalar is read: on its own it stands for a space, and with empty lines
after it, it stands for these. -/
def foldBreak (first : Char) (others : List Char) : List Char :=
  (if first ≠ '\n' then [first] else if others.isEmpty then [' '] else []) ++ others

end LatexLogic.Yaml
