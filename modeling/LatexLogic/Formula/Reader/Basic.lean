import LatexLogic.Formula.Error
import LatexLogic.Token.Basic

/-!
# Reading tokens

A reader takes tokens off the front of a list. It answers with a result and the tokens that are
left, or it fails, and a failure too says which tokens are left: reading can go on from there.

The readers of this module know nothing about formulas. They look at the next token, demand a
certain token, and read lists and texts between delimiters with a given reader for the parts. Every
delimiter can also be written in its `\left` and `\right` form, in which both sides have to agree.
-/

set_option autoImplicit false

namespace LatexLogic

/-- Why reading stops: the tokens make up no formula, or the formula is nested too deeply to be
read. -/
inductive Failure where
  | fault (error : FormulaError)
  | tooDeep
  deriving DecidableEq, Repr

/-- A reader of tokens, which keeps its place when it fails. -/
abbrev Reader := EStateM Failure (List Token)

namespace Reader

variable {α : Type}

/-! ## Single tokens -/

/-- Fails with an error at the current place. -/
def fail (error : FormulaError) : Reader α :=
  throw (.fault error)

/-- The next token, which stays. -/
def peek? : Reader (Option Token) :=
  fun ts => .ok ts.head? ts

/-- Takes the next token. -/
def next? : Reader (Option Token) := fun
  | [] => .ok none []
  | t :: ts => .ok (some t) ts

/-- Takes the next token, of which there has to be one. -/
def next : Reader Token := do
  match ← next? with
  | some t => return t
  | none => fail (.unexpectedEnd none)

/-- Whether the next token is written as given. -/
def nextIs (written : String) : List Token → Bool
  | [] => false
  | t :: _ => t.written == written

/-- Takes a token that is written as given. A different token is taken as well, and is an error. -/
def expect (written : String) : Reader Token := do
  match ← next? with
  | none => fail (.unexpectedEnd (some written))
  | some t => if t.written = written then return t else fail (.badToken t.written (some written))

/-! ## Delimiters -/

/-- The word that opens the long form of a delimiter. -/
def leftWord : String := "\\left"

/-- The word that closes the long form of a delimiter. -/
def rightWord : String := "\\right"

/-- Whether a delimiter stands next, in either form. -/
def opensWith (delimiter : String) (ts : List Token) : Bool :=
  nextIs delimiter ts || (nextIs leftWord ts && nextIs delimiter (ts.drop 1))

/-- Reads what stands between two delimiters, both in the short form or both in the long form. -/
def delimited (opening closing : String) (inner : Reader α) : Reader α := do
  match ← next? with
  | none => fail (.unexpectedEnd (some opening))
  | some t =>
    if t.written = leftWord then
      let _ ← expect opening
      let result ← inner
      let _ ← expect rightWord
      let _ ← expect closing
      return result
    else if t.written = opening then
      let result ← inner
      let _ ← expect closing
      return result
    else fail (.badToken t.written (some opening))

/-- Reads what stands between parentheses. -/
def parenthesised (inner : Reader α) : Reader α :=
  delimited "(" ")" inner

/-- Reads what stands between braces, which have no long form. -/
def braced (inner : Reader α) : Reader α := do
  let _ ← expect "\x7b"
  let result ← inner
  let _ ← expect "\x7d"
  return result

/-! ## Lists -/

/-- Reads items as long as a comma stands before them, at most the given number of times. -/
def moreItems (item : Reader α) : (limit : Nat) → Reader (List α)
  | 0 => return []
  | limit + 1 => do
    if nextIs "," (← get) then
      let _ ← next?
      let first ← item
      let rest ← moreItems item limit
      return first :: rest
    else return []

/-- Reads one or more items with commas between them. No more items can follow than tokens. -/
def list (item : Reader α) : Reader (List α) := do
  let first ← item
  let rest ← moreItems item (← get).length
  return first :: rest

end Reader

end LatexLogic
