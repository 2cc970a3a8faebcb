import LatexLogic.Data.Display
import LatexLogic.Data.Json

/-!
# Formula errors

The nine ways in which a text can fail to be a formula. The first three concern reading tokens, the
fourth the number of arguments, the fifth the variable after a quantifier; the other four are found
by the checks on the finished tree. Every error has a tag, the fields that explain it, and a
message.

Beside them stands `longArgumentCount`. The message of a wrong number of arguments is written when
the error is met, and a number with too many digits cannot be written; what is met then is no formula
error, and nobody who reports formula errors reports it.
-/

set_option autoImplicit false

namespace LatexLogic

/-- Why a text is not a formula. -/
inductive FormulaError where
  | badToken (actual : String) (expected : Option String)
  | blank
  | unexpectedEnd (expected : Option String)
  | wrongArgumentCount (symbol : String) (expected actual : Int)
  /-- A wrong number of arguments of which no message can be written. -/
  | longArgumentCount (symbol : String) (expected actual : Int)
  | boundEigenvariable (name : String)
  | doubleBound (name : String)
  | eigenvariableDeclaredFree (name metavariable : String)
  | freeVariable (name : String)
  | inconsistentDeclarations (metavariable : String)
  deriving DecidableEq, Repr

namespace FormulaError

/-- The tag that names the kind of an error in every output. -/
def tag : FormulaError → String
  | badToken _ _ => "BadToken"
  | blank => "BlankExpression"
  | unexpectedEnd _ => "UnexpectedEnd"
  | wrongArgumentCount _ _ _ => "WrongNumArgs"
  | longArgumentCount _ _ _ => "ValueError"
  | boundEigenvariable _ => "BoundEigenvar"
  | doubleBound _ => "DoubleBound"
  | eigenvariableDeclaredFree _ _ => "EigenvarDeclaredFree"
  | freeVariable _ => "FreeVar"
  | inconsistentDeclarations _ => "InconsistentAllowedSubs"

/-- A text, or null where there is none. -/
def optionalText : Option String → Data
  | none => .null
  | some text => .text text

/-- The fields that explain an error, in the order in which they are shown. -/
def fields : FormulaError → List (String × Data)
  | badToken actual expected => [("expected", optionalText expected), ("actual", .text actual)]
  | blank => []
  | unexpectedEnd expected => [("expected", optionalText expected)]
  | wrongArgumentCount symbol expected actual =>
    [("symbol", .text symbol), ("expected", .int expected), ("actual", .int actual)]
  | longArgumentCount _ _ _ => []
  | boundEigenvariable v => [("variable", .text v)]
  | doubleBound v => [("variable", .text v)]
  | eigenvariableDeclaredFree v m => [("variable", .text v), ("metavariable", .text m)]
  | freeVariable v => [("variable", .text v)]
  | inconsistentDeclarations m => [("metavar", .text m)]

/-- The message of an error, as a person reads it. -/
def message : FormulaError → String
  | badToken actual none => "Unexpected token " ++ Text.quoted actual
  | badToken actual (some expected) =>
    "Expected " ++ Text.quoted expected ++ " but found " ++ Text.quoted actual
  | blank => "Expression is blank"
  | unexpectedEnd none => "Unexpected end of input"
  | unexpectedEnd (some expected) => "Unexpected end of input, expected " ++ Text.quoted expected
  | wrongArgumentCount symbol expected actual =>
    s!"{symbol} takes {expected} argument(s) but was given {actual}"
  | longArgumentCount _ _ _ => Numeral.tooLongMessage
  | boundEigenvariable v => s!"Eigenvariable {v} cannot be bound by a quantifier"
  | doubleBound v => s!"Variable {v} is bound more than once"
  | eigenvariableDeclaredFree v m =>
    s!"Eigenvariable {v} is always free and cannot be declared free in {m}"
  | freeVariable v => s!"Variable {v} occurs free"
  | inconsistentDeclarations m => s!"Metavariable {m} is declared with different free variables"

/-- The entries that describe an error in an exported result. -/
def toEntries (e : FormulaError) : List (String × Data) :=
  ("kind", .text "error") :: ("msg", .text e.tag) :: e.fields

/-- The error of a wrong number of arguments. -/
def ofCount (symbol : String) (expected actual : Int) : FormulaError :=
  if Numeral.isTooLong expected || Numeral.isTooLong actual then
    longArgumentCount symbol expected actual
  else wrongArgumentCount symbol expected actual

/-- Numbers that can be written make up an error with a message. -/
theorem ofCount_eq {symbol : String} {expected actual : Int}
    (hexpected : Numeral.isTooLong expected = false) (hactual : Numeral.isTooLong actual = false) :
    ofCount symbol expected actual = wrongArgumentCount symbol expected actual := by
  simp [ofCount, hexpected, hactual]

/-- Whether an error holds a number that has too many digits to be written. -/
def hasLongNumber : FormulaError → Bool
  | longArgumentCount _ _ _ => true
  | _ => false

/-- The error as its tag applied to its fields. -/
def display (e : FormulaError) : String :=
  let fields := e.fields.map fun field => field.1 ++ "=" ++ field.2.display
  e.tag ++ "(" ++ String.intercalate ", " fields ++ ")"

/-- Whether an error says that an operator was given the wrong number of arguments. -/
def isArgumentCount : FormulaError → Bool
  | wrongArgumentCount _ _ _ | longArgumentCount _ _ _ => true
  | _ => false

theorem isArgumentCount_ofCount (symbol : String) (expected actual : Int) :
    (ofCount symbol expected actual).isArgumentCount = true := by
  unfold ofCount
  split <;> rfl

end FormulaError

end LatexLogic
