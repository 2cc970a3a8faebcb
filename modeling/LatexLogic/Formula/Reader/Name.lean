import LatexLogic.Formula.Reader.Basic
import LatexLogic.Formula.Tree

/-!
# Reading names

A variable is a lower case letter without a meaning in the table. An underscore after it starts a
subscript: one digit, or any number of digits in braces. Of an unbraced number only the first digit
belongs to the subscript. A metavariable can carry a subscript too, and after it a list of variables
in parentheses, which it is declared to have free.
-/

set_option autoImplicit false

namespace LatexLogic.Reader

/-- The digits at the front of a list of tokens, and the rest. -/
def leadingDigits : List Token → List Char × List Token
  | .char c :: ts =>
    if isDecimalDigit c then
      let (digits, rest) := leadingDigits ts
      (c :: digits, rest)
    else ([], .char c :: ts)
  | ts => ([], ts)

/-- Reads one or more digits. -/
def integer : Reader String := fun ts =>
  match leadingDigits ts with
  | ([], []) => .error (.fault (.unexpectedEnd none)) []
  | ([], t :: rest) => .error (.fault (.badToken t.written none)) (t :: rest)
  | (digits, rest) => .ok (String.ofList digits) rest

/-- The digit that a token stands for. -/
def digitOf? : Token → Option Char
  | .char c => if isDecimalDigit c then some c else none
  | _ => none

/-- Reads an underscore and the digits after it. -/
def subscript : Reader String := do
  let _ ← expect "_"
  match ← peek? with
  | none => fail (.unexpectedEnd none)
  | some t =>
    match digitOf? t with
    | some digit => do
      let _ ← next?
      return String.singleton digit
    | none => braced integer

/-- Reads the subscript of a name, if one follows. -/
def withSubscript (name : String) : Reader String := do
  if nextIs "_" (← get) then return name ++ "_" ++ (← subscript)
  else return name

/-- The letter of a variable that a token stands for. -/
def variableLetter? : Token → Option Char
  | .char c => if isVariableLetter c then some c else none
  | _ => none

/-- Reads a variable. -/
def variableName : Reader String := do
  let t ← next
  match variableLetter? t with
  | some c => withSubscript (String.singleton c)
  | none => fail (.badToken t.written none)

/-- Reads the variables that a metavariable is declared to have free, if a declaration follows. -/
def declaration : Reader (List String) := do
  if opensWith "(" (← get) then parenthesised (list variableName)
  else return []

/-- Reads what may follow the letter of a metavariable. -/
def metavariable (letter : MetaLetter) : Reader Tree := do
  let name ← withSubscript letter.name
  return .metavar name (← declaration)

end LatexLogic.Reader
