import LatexLogic.Formula.Variable
import LatexLogic.Table.Basic

/-!
# Tokens

The units in which a formula is read. A lexeme is a piece of text: one character, or a backslash
with what belongs to it. A token is a lexeme together with its meaning, which is a metavariable, a
construct of the table, or nothing. A lexeme without a meaning is still a token, for parentheses,
commas and variables are such.
-/

set_option autoImplicit false

namespace LatexLogic

/-- A piece of text that makes up one token. -/
inductive Lexeme where
  /-- One character. -/
  | char (c : Char)
  /-- A backslash and what follows it: a word of letters, one other character, or nothing at the end
  of the text. -/
  | control (name : String)
  deriving DecidableEq, Repr

namespace Lexeme

/-- The spelling under which a table is asked for the meaning. -/
def spelling : Lexeme → String
  | char c => String.singleton c
  | control name => name

/-- The text of a lexeme as written. -/
def written : Lexeme → String
  | char c => String.singleton c
  | control name => "\\" ++ name

end Lexeme

/-- A lexeme with its meaning. -/
inductive Token where
  | known (lexeme : Lexeme) (construct : Construct)
  | metavariable (letter : MetaLetter)
  | char (c : Char)
  | unrecognized (name : String)
  deriving Repr

namespace Token

/-- The lexeme of a token. -/
def lexeme : Token → Lexeme
  | known lexeme _ => lexeme
  | metavariable letter => .control letter.name
  | char c => .char c
  | unrecognized name => .control name

/-- The text of a token as written. -/
def written (t : Token) : String :=
  t.lexeme.written

/-- The construct that a token stands for. -/
def construct? : Token → Option Construct
  | known _ construct => some construct
  | _ => none

/-- The meaning of a lexeme. The names of the metavariable letters come before the table. -/
def ofLexeme (table : Table) : Lexeme → Token
  | .char c =>
    match table.get? (String.singleton c) with
    | some construct => .known (.char c) construct
    | none => .char c
  | .control name =>
    match MetaLetter.ofName? name with
    | some letter => .metavariable letter
    | none =>
      match table.get? name with
      | some construct => .known (.control name) construct
      | none => .unrecognized name

/-- A token has the lexeme that it was made from. -/
@[simp] theorem lexeme_ofLexeme (table : Table) (l : Lexeme) : (ofLexeme table l).lexeme = l := by
  cases l with
  | char c =>
    dsimp only [ofLexeme]
    cases table.get? (String.singleton c) <;> rfl
  | control name =>
    dsimp only [ofLexeme]
    cases hname : MetaLetter.ofName? name with
    | some letter =>
      rw [MetaLetter.ofName?_eq_some_iff] at hname
      subst hname
      rfl
    | none =>
      dsimp only
      cases table.get? name <;> rfl

end Token

end LatexLogic
