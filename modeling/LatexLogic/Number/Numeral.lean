import LatexLogic.Number.Binary64
import LatexLogic.Text.Blank
import LatexLogic.Text.Digit
import LatexLogic.Text.Quoted

/-!
# Numerals

Reading a whole text as a number. White space may stand around it and a sign in front of it. An
integer is read in a given base, whose mark (`0b`, `0o` or `0x`) may stand in front of the digits;
in base ten it has at most 4300 digits. A binary64 number has digits, possibly with a point among
them, and possibly an exponent, or is one of the words for infinity and for an undefined value.

A text of ASCII characters is read as it is. In any other text a blank of any kind counts as a space
and a decimal digit of any script as the ASCII digit.
-/

set_option autoImplicit false

namespace LatexLogic.Numeral

/-- Why a text is no integer. -/
inductive IntegerFault where
  | invalid (base : Nat) (text : String)
  | tooManyDigits (count : Nat)
  deriving DecidableEq, Repr

/-- How many digits an integer in base ten may have. -/
def digitLimit : Nat := 4300

/-- Whether an integer has more digits than can be written in base ten. -/
def isTooLong (n : Int) : Bool :=
  digitLimit < Binary64.digitCount n.natAbs

/-- What is said where an integer has too many digits to be written. -/
def tooLongMessage : String :=
  "Exceeds the limit (" ++ toString digitLimit ++ " digits) for integer string conversion; " ++
    "use sys.set_int_max_str_digits() to increase the limit"

/-- How many characters of a text a message shows, the quote in front included. -/
def shownLength : Nat := 200

/-- The message of a fault. -/
def IntegerFault.message : IntegerFault → String
  | invalid base text =>
    "invalid literal for int() with base " ++ toString base ++ ": " ++
      String.ofList ((Text.quotedChars text.toList).take shownLength)
  | tooManyDigits count =>
    "Exceeds the limit (" ++ toString digitLimit ++
      " digits) for integer string conversion: value has " ++ toString count ++
      " digits; use sys.set_int_max_str_digits() to increase the limit"

/-! ## Characters -/

/-- The white space of ASCII. -/
def isSpace (c : Char) : Bool :=
  c = ' ' || ('\t' ≤ c && c ≤ '\r')

/-- Whether a character is one of ASCII. -/
def isAscii (c : Char) : Bool :=
  c.toNat < 0x80

/-- A character of a text that is not all ASCII, as it counts. -/
def countedChar (c : Char) : Char :=
  if isAscii c then c
  else if Text.isBlank c then ' '
  else
    match Text.scriptDigitValue? c with
    | some digit => Nat.digitChar digit
    | none => c

/-- The characters of a text as they count, without the white space around them. -/
def characters (cs : List Char) : List Char :=
  let counted := if cs.all isAscii then cs else cs.map countedChar
  ((counted.dropWhile isSpace).reverse.dropWhile isSpace).reverse

/-- Splits an optional sign off, and says whether it is a minus. -/
def takeSign : List Char → Bool × List Char
  | '-' :: cs => (true, cs)
  | '+' :: cs => (false, cs)
  | cs => (false, cs)

/-- The value of an ASCII digit or letter as a digit. -/
def digitValue? (c : Char) : Option Nat :=
  if '0' ≤ c && c ≤ '9' then some (c.toNat - '0'.toNat)
  else if 'a' ≤ c && c ≤ 'z' then some (c.toNat - 'a'.toNat + 10)
  else if 'A' ≤ c && c ≤ 'Z' then some (c.toNat - 'A'.toNat + 10)
  else none

/-- Whether a character is a digit in a base. -/
def isDigitIn (base : Nat) (c : Char) : Bool :=
  (digitValue? c).any (· < base)

/-- The number that digits stand for. -/
def valueIn (base : Nat) (digits : List Char) : Nat :=
  digits.foldl (fun n c => base * n + (digitValue? c).getD 0) 0

/-! ## Integers -/

/-- The letter in the mark of a base. -/
def baseLetter? (base : Nat) : Option Char :=
  if base = 2 then some 'b' else if base = 8 then some 'o' else if base = 16 then some 'x' else none

/-- The characters behind the mark of a base, or all of them if it is not there. -/
def dropBaseMark (base : Nat) (cs : List Char) : List Char :=
  match cs with
  | '0' :: letter :: rest => if baseLetter? base = some letter.toLower then rest else cs
  | _ => cs

/-- The integer that a text stands for in a base. -/
def integer (base : Nat) (text : List Char) : Except IntegerFault Int :=
  let (negative, unsigned) := takeSign (characters text)
  let digits := dropBaseMark base unsigned
  let valid := digits.takeWhile (isDigitIn base)
  if base = 10 && valid.length > digitLimit then .error (.tooManyDigits valid.length)
  else if digits.isEmpty || valid.length < digits.length then
    .error (.invalid base (String.ofList text))
  else
    let n : Int := valueIn base digits
    .ok (if negative then -n else n)

/-! ## Numbers of the binary64 format -/

/-- The exponent behind the digits of a number: none, or a letter, possibly a sign, and digits. -/
def exponent? : List Char → Option Int
  | [] => some 0
  | e :: rest =>
    let (negative, digits) := takeSign rest
    if (e = 'e' || e = 'E') && !digits.isEmpty && digits.all (isDigitIn 10) then
      let n : Int := valueIn 10 digits
      some (if negative then -n else n)
    else none

/-- The number whose digits are given, with a point among them and an exponent behind them. -/
def decimal? (negative : Bool) (cs : List Char) : Option Binary64 :=
  let whole := cs.takeWhile (isDigitIn 10)
  let rest := cs.dropWhile (isDigitIn 10)
  let (places, rest) : List Char × List Char :=
    match rest with
    | '.' :: rest => (rest.takeWhile (isDigitIn 10), rest.dropWhile (isDigitIn 10))
    | _ => ([], rest)
  if whole.isEmpty && places.isEmpty then none
  else
    (exponent? rest).map fun exponent =>
      Binary64.ofDecimal negative (valueIn 10 (whole ++ places)) (exponent - places.length)

/-- The binary64 number that a text stands for. -/
def binary64? (text : List Char) : Option Binary64 :=
  let (negative, unsigned) := takeSign (characters text)
  let word := String.ofList (unsigned.map Char.toLower)
  if word = "inf" || word = "infinity" then some (Binary64.infinity negative)
  else if word = "nan" then some Binary64.undefinedValue
  else decimal? negative unsigned

end LatexLogic.Numeral
