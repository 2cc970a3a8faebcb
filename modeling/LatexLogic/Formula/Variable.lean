/-!
# Names in formulas

The names that a formula can use without any table. A variable is one lower case letter, optionally
followed by an underscore and a decimal number. The letters a to r name eigenvariables, which are
always free; the letters s to z name ordinary variables, which have to be bound. A metavariable
stands for a formula and has one of three letters.

All letters and digits are those of ASCII.
-/

set_option autoImplicit false

namespace LatexLogic

/-- One decimal digit. -/
def isDecimalDigit (c : Char) : Bool :=
  '0' ≤ c && c ≤ '9'

/-- A text that is one decimal digit. -/
def isDigitText (text : String) : Bool :=
  match text.toList with
  | [c] => isDecimalDigit c
  | _ => false

/-- What may follow the letter of a variable: nothing, or an underscore and at least one digit. -/
def isSubscriptPart : List Char → Bool
  | [] => true
  | '_' :: d :: ds => (d :: ds).all isDecimalDigit
  | _ => false

/-- A letter of the given class, with or without a subscript. -/
def isVariableOf (letters : Char → Bool) (name : String) : Bool :=
  match name.toList with
  | [] => false
  | c :: rest => letters c && isSubscriptPart rest

/-- The letters of eigenvariables. -/
def isEigenLetter (c : Char) : Bool :=
  'a' ≤ c && c ≤ 'r'

/-- The letters of ordinary variables. -/
def isOrdinaryLetter (c : Char) : Bool :=
  's' ≤ c && c ≤ 'z'

/-- The letters of variables. -/
def isVariableLetter (c : Char) : Bool :=
  'a' ≤ c && c ≤ 'z'

/-- Names of eigenvariables, such as `a` and `g_12`. -/
def isEigenvariable (name : String) : Bool :=
  isVariableOf isEigenLetter name

/-- Names of ordinary variables, such as `x` and `s_0`. -/
def isOrdinaryVariable (name : String) : Bool :=
  isVariableOf isOrdinaryLetter name

/-- The letters of metavariables. -/
inductive MetaLetter where
  | phi
  | psi
  | chi
  deriving DecidableEq, Repr

namespace MetaLetter

/-- The name of a letter, which is also its control word. -/
def name : MetaLetter → String
  | phi => "phi"
  | psi => "psi"
  | chi => "chi"

/-- The letter of a given name. -/
def ofName? (name : String) : Option MetaLetter :=
  if name = "phi" then some phi
  else if name = "psi" then some psi
  else if name = "chi" then some chi
  else none

/-- Reading the name of a letter gives the letter back. -/
@[simp] theorem ofName?_name (letter : MetaLetter) : ofName? letter.name = some letter := by
  cases letter <;> decide

/-- Only the name of a letter is read as that letter. -/
theorem ofName?_eq_some_iff {text : String} {letter : MetaLetter} :
    ofName? text = some letter ↔ text = letter.name := by
  constructor
  · intro h
    unfold ofName? at h
    split at h
    · next hp => cases h; exact hp
    · split at h
      · next hp => cases h; exact hp
      · split at h
        · next hp => cases h; exact hp
        · cases h
  · rintro rfl
    exact ofName?_name letter

end MetaLetter

end LatexLogic
