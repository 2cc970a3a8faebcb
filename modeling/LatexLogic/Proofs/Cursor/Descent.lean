import LatexLogic.Formula.Reader.Level

/-!
# Recursive descent with a cursor

A reader takes tokens off the front of a list. The parsers of this module leave the tokens alone and
move a cursor over them: they look at the tokens at the cursor, take one and step behind it, and go
back to a place that they have marked. They call each other for the parts inside, for a part at the
very same place too, and `Parser` lists them, together with those that read around another parser.

`Parser.body` says what each of them does, given how the parsers that it calls are carried out.
`Parser.run` carries them out with a limited fuel: every call costs one, so that a run which does not
run out of it has no more calls inside each other than it had fuel. The loops, over the items of a
list, the digits of a number and the infix operators after an operand, run out in the same way if they
go round more often than that.

`Parser.parse` gives each parser four calls for every token ahead and a few more. That this is always
enough, and that the parsers are the readers of this library with a cursor for the list of tokens, is
shown in `Proofs.Cursor.Calls`.
-/

set_option autoImplicit false

namespace LatexLogic

open Reader (leftWord rightWord digitOf? variableLetter?)

/-- A place in a list of tokens. -/
structure Cursor where
  /-- All tokens. -/
  tokens : List Token
  /-- How many of them stand in front of the cursor. -/
  position : Nat

/-- A step that moves a cursor and keeps it when it fails. -/
abbrev CursorReader := EStateM Failure Cursor

namespace Cursor

variable {α : Type}

/-! ## Tokens at the cursor -/

/-- The tokens from the cursor on. -/
def ahead (c : Cursor) : List Token :=
  c.tokens.drop c.position

/-- How many tokens stand behind the cursor. -/
def remaining (c : Cursor) : Nat :=
  c.tokens.length - c.position

/-- The token at a distance from the cursor. -/
def peek? (c : Cursor) (distance : Nat) : Option Token :=
  c.tokens[c.position + distance]?

/-- The token in front of the cursor. -/
def passed? (c : Cursor) : Option Token :=
  if c.position = 0 then none else c.tokens[c.position - 1]?

/-- Whether the token at a distance from the cursor is written as given. -/
def isAt (c : Cursor) (distance : Nat) (written : String) : Bool :=
  (c.peek? distance).any fun t => t.written == written

/-- Whether a delimiter stands at the cursor, in either form. -/
def opensWith (c : Cursor) (delimiter : String) : Bool :=
  c.isAt 0 delimiter || (c.isAt 0 leftWord && c.isAt 1 delimiter)

/-- The cursor behind one token more. -/
def advance (c : Cursor) : Cursor :=
  { c with position := c.position + 1 }

/-! ## Single steps -/

/-- Fails with an error at the cursor. -/
def fail (error : FormulaError) : CursorReader α :=
  throw (.fault error)

/-- Takes the token at the cursor, if there is one. -/
def next? : CursorReader (Option Token) := fun c =>
  match c.peek? 0 with
  | none => .ok none c
  | some t => .ok (some t) c.advance

/-- Takes the token at the cursor, of which there has to be one. -/
def next : CursorReader Token := do
  match ← next? with
  | some t => return t
  | none => fail (.unexpectedEnd none)

/-- Takes a token that is written as given. A different token is taken as well, and is an error. -/
def expect (written : String) : CursorReader Token := do
  match ← next? with
  | none => fail (.unexpectedEnd (some written))
  | some t => if t.written = written then return t else fail (.badToken t.written (some written))

/-- Puts the cursor back to a place in its tokens. -/
def reset (position : Nat) : CursorReader Unit :=
  modify fun c => { c with position }

/-! ## Delimiters -/

/-- Reads what stands between two delimiters, both in the short form or both in the long form. -/
def delimited (opening closing : String) (inner : CursorReader α) : CursorReader α := do
  match ← next? with
  | none => fail (.unexpectedEnd (some opening))
  | some t =>
    if t.written = leftWord then
      let _ ← expect opening
      let result ← inner
      let _ ← expect rightWord
      let _ ← expect closing
      return result
    else if t.written = opening then
      let result ← inner
      let _ ← expect closing
      return result
    else fail (.badToken t.written (some opening))

/-- Reads what stands between braces. -/
def braced (inner : CursorReader α) : CursorReader α := do
  let _ ← expect "\x7b"
  let result ← inner
  let _ ← expect "\x7d"
  return result

/-! ## Loops -/

/-- Reads items as long as a comma stands before them. -/
def moreItems (item : CursorReader α) : (rounds : Nat) → CursorReader (List α)
  | 0 => throw .tooDeep
  | rounds + 1 => do
    if (← get).isAt 0 "," then
      let _ ← next?
      let first ← item
      let rest ← moreItems item rounds
      return first :: rest
    else return []

/-- Reads one or more items with commas between them. -/
def list (item : CursorReader α) (rounds : Nat) : CursorReader (List α) := do
  let first ← item
  let rest ← moreItems item rounds
  return first :: rest

/-- Reads digits as long as there are any. -/
def digits : (rounds : Nat) → CursorReader (List Char)
  | 0 => throw .tooDeep
  | rounds + 1 => do
    match ((← get).peek? 0).bind digitOf? with
    | none => return []
    | some digit =>
      let _ ← next?
      let rest ← digits rounds
      return digit :: rest

/-- Reads one or more digits. -/
def integer (rounds : Nat) : CursorReader String := do
  let read ← digits rounds
  if read.isEmpty then
    match (← get).peek? 0 with
    | none => fail (.unexpectedEnd none)
    | some t => fail (.badToken t.written none)
  else return String.ofList read

/-- Reads the operators that continue a run after `tree`, each with its right argument. -/
def infixRun (operator? : Token → Option InfixOperator) (operand : Threshold → CursorReader Tree)
    (threshold : Threshold) : (rounds : Nat) → Tree → CursorReader Tree
  | 0, _ => throw .tooDeep
  | rounds + 1, tree => do
    match ((← get).peek? 0).bind fun t =>
        (operator? t).filter fun op => threshold.admits op.leftPower with
    | none => return tree
    | some op =>
      let _ ← next?
      let right ← operand (.power op.rightPower)
      infixRun operator? operand threshold rounds (.node op.label [tree, right])

end Cursor

/-! ## Parsers -/

/-- The parsers of formulas and terms and of their parts, and those that read around another one. The
type is that of the results. -/
inductive Parser : Type → Type 1 where
  | formula (m : Threshold) : Parser Tree
  | basicFormula : Parser Tree
  | infixPredicate : Parser Tree
  | term (m : Threshold) : Parser Tree
  | basicTerm : Parser Tree
  | name : Parser String
  | subscript : Parser String
  | integer : Parser String
  | list {α : Type} (item : Parser α) : Parser (List α)
  | parens {α : Type} (inner : Parser α) : Parser α
  | group {α : Type} (inner : Parser α) : Parser α
  | delimited {α : Type} (opening closing : String) (inner : Parser α) : Parser α

/-- How a parser that is called is carried out. -/
abbrev Caller := ⦃α : Type⦄ → Parser α → CursorReader α

namespace Parser

open Cursor (fail next? next expect reset)

section Bodies

variable (call : Caller) (rounds : Nat)

/-- Reads the subscript of a name, if one follows. -/
def withSubscript (name : String) : CursorReader String := do
  if (← get).isAt 0 "_" then return name ++ "_" ++ (← call .subscript)
  else return name

/-- Reads a variable. -/
def nameBody : CursorReader String := do
  let t ← next
  match variableLetter? t with
  | some c => withSubscript call (String.singleton c)
  | none => fail (.badToken t.written none)

/-- Reads an underscore and the digits after it. -/
def subscriptBody : CursorReader String := do
  let _ ← expect "_"
  match (← get).peek? 0 with
  | none => fail (.unexpectedEnd none)
  | some t =>
    match digitOf? t with
    | some digit =>
      let _ ← next?
      return String.singleton digit
    | none => call (.group .integer)

/-- Reads the variables that a metavariable is declared to have free, if a declaration follows. -/
def declaration : CursorReader (List String) := do
  if (← get).opensWith "(" then call (.parens (.list .name))
  else return []

/-- Reads the arguments of a prefix operator in parentheses and applies the operator to them. -/
def application (symbol label : String) (arity : Nat) (argument : Parser Tree) :
    CursorReader Tree := do
  let args ← call (.parens (.list argument))
  match Tree.applied symbol label arity args with
  | .ok tree => return tree
  | .error e => fail e

/-- Reads a basic term: a prefix function with basic terms as its arguments, a term in parentheses,
or a variable. -/
def basicTermBody : CursorReader Tree := do
  match (← get).peek? 0 with
  | none => fail (.unexpectedEnd none)
  | some t =>
    match t with
    | .known lexeme (.function label (.prefixOp arity _ _)) =>
      let _ ← next?
      application call lexeme.written label arity .basicTerm
    | _ =>
      if (← get).opensWith "(" then call (.parens (.term Level.whole))
      else return .atom (← call .name)

/-- Reads a term: basic terms with infix functions between them. -/
def termBody (m : Threshold) : CursorReader Tree := do
  match (← get).peek? 0 with
  | none => fail (.unexpectedEnd none)
  | some _ =>
    let first ← call .basicTerm
    Cursor.infixRun Token.infixFunction? (fun m => call (.term m)) m rounds first

/-- Reads two terms with an infix predicate between them. -/
def infixPredicateBody : CursorReader Tree := do
  let left ← call (.term Level.whole)
  let t ← next
  match t with
  | .known _ (.predicate label .infixOp) =>
    let right ← call (.term Level.whole)
    return .node label [left, right]
  | _ => fail (.badToken t.written none)

/-- Reads a formula in parentheses. If that fails, and the failure leaves room for a term, the cursor
goes back to the parenthesis and an infix predicate is read from there. -/
def parenthesisBody : CursorReader Tree := do
  let mark := (← get).position
  try
    call (.parens (.formula Level.whole))
  catch failure =>
    if Level.leavesTerm failure then
      reset mark
      call .infixPredicate
    else throw failure

/-- Reads a formula without connectives outside parentheses. -/
def basicFormulaBody : CursorReader Tree := do
  match (← get).peek? 0 with
  | none => fail (.unexpectedEnd none)
  | some t =>
    match t with
    | .metavariable letter =>
      let _ ← next?
      let name ← withSubscript call letter.name
      let declared ← declaration call
      return .metavar name declared
    | .known _ (.connective label (.nullary _ _)) =>
      let _ ← next?
      return .atom label
    | .known lexeme (.predicate label (.prefixOp arity _)) =>
      let _ ← next?
      application call lexeme.written label arity (.term Level.whole)
    | _ => if (← get).opensWith "(" then parenthesisBody call else call .infixPredicate

/-- Reads the first operand of a formula: a prefix connective with its argument, a quantifier with
its variable and scope, or a basic formula. -/
def operand : CursorReader Tree := do
  match (← get).peek? 0 with
  | none => fail (.unexpectedEnd none)
  | some t =>
    match t with
    | .known _ (.connective label (.prefixOp precedence note)) =>
      let _ ← next?
      let power := (Construct.connectivePowers (.prefixOp precedence note)).2
      let argument ← call (.formula (.power power))
      return .node label [argument]
    | .known _ (.quantifier label) =>
      let _ ← next?
      let bound ← call .name
      if isEigenvariable bound then fail (.boundEigenvariable bound)
      else
        let scope ← call (.formula .unreachable)
        return .node label [.atom bound, scope]
    | _ => call .basicFormula

/-- Reads a formula: operands with infix connectives between them. -/
def formulaBody (m : Threshold) : CursorReader Tree := do
  let first ← operand call
  Cursor.infixRun Token.infixConnective? (fun m => call (.formula m)) m rounds first

/-- What a parser does, given how it calls other parsers and how often its loop may go round. -/
def body : ⦃α : Type⦄ → Parser α → CursorReader α
  | _, .formula m => formulaBody call rounds m
  | _, .basicFormula => basicFormulaBody call
  | _, .infixPredicate => infixPredicateBody call
  | _, .term m => termBody call rounds m
  | _, .basicTerm => basicTermBody call
  | _, .name => nameBody call
  | _, .subscript => subscriptBody call
  | _, .integer => Cursor.integer rounds
  | _, .list item => Cursor.list (call item) rounds
  | _, .parens inner => call (.delimited "(" ")" inner)
  | _, .group inner => Cursor.braced (call inner)
  | _, .delimited opening closing inner => Cursor.delimited opening closing (call inner)

end Bodies

/-! ## Runs -/

/-- Carries out a parser. A call costs one of the fuel, and without fuel it is refused. -/
def run : Nat → Caller
  | 0 => fun _ _ => throw .tooDeep
  | fuel + 1 => body (run fuel) fuel

/-- What a parser needs besides four calls for each token ahead. Inside delimiters it is called after
a token was taken, and that token pays for four of its calls. -/
def allowance : {α : Type} → Parser α → Nat
  | _, .formula _ => 7
  | _, .basicFormula => 6
  | _, .infixPredicate => 5
  | _, .term _ => 4
  | _, .basicTerm => 3
  | _, .name => 1
  | _, .subscript => 1
  | _, .integer => 2
  | _, .list item => item.allowance + 1
  | _, .parens inner => max 1 (inner.allowance - 3) + 1
  | _, .group inner => max 1 (inner.allowance - 3)
  | _, .delimited _ _ inner => max 1 (inner.allowance - 3)

section Allowance

variable {α : Type} (m : Threshold) (inner : Parser α)

@[simp] theorem allowance_formula : (formula m).allowance = 7 := rfl

@[simp] theorem allowance_basicFormula : basicFormula.allowance = 6 := rfl

@[simp] theorem allowance_infixPredicate : infixPredicate.allowance = 5 := rfl

@[simp] theorem allowance_term : (term m).allowance = 4 := rfl

@[simp] theorem allowance_basicTerm : basicTerm.allowance = 3 := rfl

@[simp] theorem allowance_name : name.allowance = 1 := rfl

@[simp] theorem allowance_subscript : subscript.allowance = 1 := rfl

@[simp] theorem allowance_integer : integer.allowance = 2 := rfl

@[simp] theorem allowance_list : (list inner).allowance = inner.allowance + 1 := rfl

@[simp] theorem allowance_parens :
    (parens inner).allowance = max 1 (inner.allowance - 3) + 1 := rfl

@[simp] theorem allowance_group : (group inner).allowance = max 1 (inner.allowance - 3) := rfl

@[simp] theorem allowance_delimited (opening closing : String) :
    (delimited opening closing inner).allowance = max 1 (inner.allowance - 3) := rfl

end Allowance

/-- Carries out a parser with as much fuel as it can need. -/
def parse {α : Type} (p : Parser α) : CursorReader α := fun c =>
  run (4 * c.remaining + p.allowance) p c

end Parser

end LatexLogic
