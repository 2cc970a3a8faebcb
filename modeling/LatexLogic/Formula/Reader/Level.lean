import LatexLogic.Formula.Reader.Infix
import LatexLogic.Formula.Reader.Name

/-!
# Reading formulas and terms

The readers of formulas, of terms and of basic terms call each other for the parts inside. Each such
call comes after at least one token has been taken: the prefix operator, the quantifier, the opening
parenthesis or the infix operator. So the readers are arranged in levels. A level is made from the
level below it, which it uses for the parts inside, and the lowest level gives up at once.

`Level.ofDepth n` allows `n` levels of nesting. The same levels serve two purposes: with more levels
than tokens the lowest one is never reached, and with a fixed number of levels a text that nests
deeper is refused as too deep.

An opening parenthesis can start a formula or a term. The formula is tried first; if that fails the
term is read from the parenthesis on. Two failures are final: a wrong number of arguments, which the
term would meet as well, and excessive depth.
-/

set_option autoImplicit false

namespace LatexLogic

/-- The mutually dependent readers at one level of nesting. -/
structure Level where
  /-- Reads a formula up to a threshold. -/
  formula : Threshold → Reader Tree
  /-- Reads a term up to a threshold. -/
  term : Threshold → Reader Tree
  /-- Reads a term without infix operators outside parentheses. -/
  basicTerm : Reader Tree

namespace Level

/-- The threshold that every operator of a table reaches whose precedence is not negative. -/
def whole : Threshold := .power 0

/-- The level below all others, which refuses to read. -/
def exhausted : Level where
  formula _ := throw .tooDeep
  term _ := throw .tooDeep
  basicTerm := throw .tooDeep

/-! ## Terms -/

/-- Reads the arguments of a prefix operator in parentheses and applies the operator to them. -/
def application (symbol label : String) (arity : Nat) (argument : Reader Tree) : Reader Tree := do
  let args ← Reader.parenthesised (Reader.list argument)
  match Tree.applied symbol label arity args with
  | .ok tree => return tree
  | .error e => Reader.fail e

/-- Reads a basic term: a prefix function with basic terms as its arguments, a term in parentheses,
or a variable. -/
def basicTermAbove (below : Level) : Reader Tree := do
  match ← Reader.peek? with
  | none => Reader.fail (.unexpectedEnd none)
  | some t =>
    match t with
    | .known lexeme (.function label (.prefixOp arity _ _)) =>
      let _ ← Reader.next?
      application lexeme.written label arity below.basicTerm
    | _ =>
      if Reader.opensWith "(" (← get) then Reader.parenthesised (below.term whole)
      else return .atom (← Reader.variableName)

/-- Reads a term: basic terms with infix functions between them. -/
def termAbove (below : Level) (threshold : Threshold) : Reader Tree := do
  let first ← basicTermAbove below
  Reader.infixRest Token.infixFunction? below.term threshold first

/-! ## Formulas -/

/-- Reads two terms with an infix predicate between them. -/
def infixPredicateAbove (below : Level) : Reader Tree := do
  let left ← termAbove below whole
  let t ← Reader.next
  match t with
  | .known _ (.predicate label .infixOp) =>
    let right ← termAbove below whole
    return .node label [left, right]
  | _ => Reader.fail (.badToken t.written none)

/-- Whether a failure of the formula inside a parenthesis leaves room for reading a term there. -/
def leavesTerm : Failure → Bool
  | .fault error => !error.isArgumentCount
  | .tooDeep => false

/-- Tries one reader and, if its failure leaves room for a term, the other from the same place. -/
def formulaElseTerm (formula term : Reader Tree) : Reader Tree := fun ts =>
  match formula ts with
  | .ok tree rest => .ok tree rest
  | .error failure rest => if leavesTerm failure then term ts else .error failure rest

/-- Reads a formula without connectives outside parentheses: a metavariable, a truth constant, a
prefix predicate with terms as its arguments, a formula in parentheses, or an infix predicate. -/
def basicFormulaAbove (below : Level) : Reader Tree := do
  match ← Reader.peek? with
  | none => Reader.fail (.unexpectedEnd none)
  | some t =>
    match t with
    | .metavariable letter =>
      let _ ← Reader.next?
      Reader.metavariable letter
    | .known _ (.connective label (.nullary _ _)) =>
      let _ ← Reader.next?
      return .atom label
    | .known lexeme (.predicate label (.prefixOp arity _)) =>
      let _ ← Reader.next?
      application lexeme.written label arity (below.term whole)
    | _ =>
      -- A parenthesis opens a formula, or a term in front of an infix predicate.
      if Reader.opensWith "(" (← get) then
        formulaElseTerm (Reader.parenthesised (below.formula whole)) (infixPredicateAbove below)
      else infixPredicateAbove below

/-- Reads the variable and the scope of a quantifier. No connective continues the scope. -/
def quantified (below : Level) (label : String) : Reader Tree := do
  let bound ← Reader.variableName
  -- The variable is refused before its scope is looked at.
  if isEigenvariable bound then Reader.fail (.boundEigenvariable bound)
  else
    let scope ← below.formula .unreachable
    return .node label [.atom bound, scope]

/-- Reads the first operand of a formula: a prefix connective with its argument, a quantifier with
its variable and scope, or a basic formula. -/
def operandAbove (below : Level) : Reader Tree := do
  match ← Reader.peek? with
  | none => Reader.fail (.unexpectedEnd none)
  | some t =>
    match t with
    | .known _ (.connective label (.prefixOp precedence note)) =>
      let _ ← Reader.next?
      let power := (Construct.connectivePowers (.prefixOp precedence note)).2
      return .node label [← below.formula (.power power)]
    | .known _ (.quantifier label) =>
      let _ ← Reader.next?
      quantified below label
    | _ => basicFormulaAbove below

/-- Reads a formula: operands with infix connectives between them. -/
def formulaAbove (below : Level) (threshold : Threshold) : Reader Tree := do
  let first ← operandAbove below
  Reader.infixRest Token.infixConnective? below.formula threshold first

/-! ## Levels -/

/-- The level that uses a given one for the parts inside. -/
def above (below : Level) : Level where
  formula := formulaAbove below
  term := termAbove below
  basicTerm := basicTermAbove below

/-- The level that allows a given depth of nesting. -/
def ofDepth : Nat → Level
  | 0 => exhausted
  | depth + 1 => above (ofDepth depth)

end Level

end LatexLogic
