import LatexLogic.Data.Timestamp
import LatexLogic.Number.Numeral

/-!
# What can be wrong with a document

A document is malformed when it breaks the rules of the format, and it can be nested too deeply. A
well-formed document can still hold a scalar whose text does not fit the meaning that its tag or its
own form gives to it: a day that is not in the calendar, a number without digits.
-/

set_option autoImplicit false

namespace LatexLogic.Yaml

/-- Why the text of a scalar has no value. -/
inductive ValueFault where
  | integer (fault : Numeral.IntegerFault)
  | noNumber (text : String)
  | calendar (fault : CalendarFault)
  /-- An escape names a number that is no code point. -/
  | codePoint (n : Nat)
  /-- A number without any character. -/
  | noCharacters
  | noTruthValue
  | noTimestamp
  /-- A number in sixties has a place whose weight is beyond the binary64 format. -/
  | placeTooLarge
  deriving DecidableEq, Repr

/-- Why a document cannot be read. -/
inductive YamlError where
  | malformed (problem : String)
  | tooDeep
  | value (fault : ValueFault)
  deriving DecidableEq, Repr

/-- The largest number that can be asked for as a code point. -/
def greatestAskedCodePoint : Nat := Nat.pow 2 31 - 1

/-- The message of a fault, where it has one. -/
def ValueFault.message? : ValueFault → Option String
  | integer fault => some fault.message
  | noNumber text => some ("could not convert string to float: " ++ Text.quoted text)
  | calendar fault => some fault.message
  | codePoint n =>
    if n ≤ greatestAskedCodePoint then some "chr() arg not in range(0x110000)" else none
  | noCharacters | noTruthValue | noTimestamp | placeTooLarge => none

/-- A reading with a fault of a number as an error of the document. -/
def ofIntegerFault {α : Type} : Except Numeral.IntegerFault α → Except ValueFault α
  | .ok a => .ok a
  | .error fault => .error (.integer fault)

end LatexLogic.Yaml
