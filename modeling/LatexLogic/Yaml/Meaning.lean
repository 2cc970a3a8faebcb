import LatexLogic.Yaml.WrittenTime

/-!
# What nodes mean

The sorts of values that the format knows. A tag names the sort of a node, and a plain scalar shows
it by its form: `yes`, `no`, `on` and `off` are truth values; integers may be binary, octal (a
leading zero), decimal, hexadecimal, or in sixties with colons, and underscores may stand among
their digits; a number with a decimal point is a binary64 number, and needs a sign in its exponent;
a day or a moment is a timestamp. An equals sign and a pair of less-than signs have a meaning of
their own, as the keys of a mapping. All other plain scalars are texts.

A line end behind the last character of a scalar does not count.
-/

set_option autoImplicit false

namespace LatexLogic.Yaml

/-- What a node means. -/
inductive Meaning where
  | null
  | bool
  | int
  | float
  | timestamp
  | text
  | binary
  | sequence
  | pairs
  | mapping
  | set
  /-- The key whose values are merged into the mapping. -/
  | mergeKey
  /-- The key of a default value. -/
  | defaultKey
  | undefined
  deriving DecidableEq, Repr

/-! ## Tags -/

/-- The first part of the tags that the format itself defines. -/
def coreTag : String := "tag:yaml.org,2002:"

/-- The tags that the format itself defines, without their first part. -/
def coreMeanings : List (String × Meaning) :=
  [("null", .null), ("bool", .bool), ("int", .int), ("float", .float), ("timestamp", .timestamp),
    ("str", .text), ("binary", .binary), ("seq", .sequence), ("omap", .pairs), ("pairs", .pairs),
    ("map", .mapping), ("set", .set), ("merge", .mergeKey), ("value", .defaultKey)]

/-- The meaning of a tag. -/
def Meaning.ofTag (tag : String) : Meaning :=
  match coreMeanings.find? fun entry => coreTag ++ entry.1 = tag with
  | some (_, meaning) => meaning
  | none => .undefined

/-! ## Forms of numbers -/

/-- The decimal digits. -/
def isDigit (c : Char) : Bool :=
  Numeral.isDigitIn 10 c

/-- The decimal digits and the underscore among them. -/
def isDigitOrGap (c : Char) : Bool :=
  isDigit c || c = '_'

/-- The characters of a list between colons. -/
def splitColons : List Char → List (List Char)
  | [] => [[]]
  | c :: cs =>
    match splitColons cs with
    | [] => [[c]]
    | part :: parts => if c = ':' then [] :: part :: parts else (c :: part) :: parts

/-- A place of a number in sixties behind the first: one digit, or two below sixty. -/
def isSixtieth : List Char → Bool
  | [a] => isDigit a
  | [a, b] => '0' ≤ a && a ≤ '5' && isDigit b
  | _ => false

/-- Whether characters are digits of a base and underscores, and at least one of them. -/
def areDigitsIn (base : Nat) (cs : List Char) : Bool :=
  !cs.isEmpty && cs.all fun c => Numeral.isDigitIn base c || c = '_'

/-- Whether characters are an integer without its sign. -/
def isNatural (cs : List Char) : Bool :=
  match cs with
  | [] => false
  | ['0'] => true
  | '0' :: 'b' :: digits => areDigitsIn 2 digits
  | '0' :: 'x' :: digits => areDigitsIn 16 digits
  | '0' :: digits => areDigitsIn 8 digits
  | first :: _ =>
    match splitColons cs with
    | [] => false
    | whole :: places => isDigit first && whole.all isDigitOrGap && places.all isSixtieth

/-- Whether characters are an integer. -/
def isInteger (cs : List Char) : Bool :=
  isNatural (Numeral.takeSign cs).2

/-- Whether characters are an exponent with its sign, or nothing. -/
def isExponent : List Char → Bool
  | [] => true
  | e :: sign :: digits =>
    (e = 'e' || e = 'E') && (sign = '+' || sign = '-') && !digits.isEmpty && digits.all isDigit
  | _ => false

/-- Whether characters are the places behind a point, possibly with an exponent. -/
def arePlaces (cs : List Char) : Bool :=
  isExponent (cs.dropWhile isDigitOrGap)

/-- Whether characters are a binary64 number with digits in front of its point: decimal, or in
sixties. -/
def isNumberFrom (whole places : List Char) : Bool :=
  match splitColons whole with
  | [] => false
  | digits :: more =>
    (digits.head?.any isDigit) && digits.all isDigitOrGap && more.all isSixtieth &&
      (if more.isEmpty then arePlaces places else places.all isDigitOrGap)

/-- Whether characters are a binary64 number. Without digits in front of the point there is no sign,
unless it is that of an infinity. -/
def isFloat (cs : List Char) : Bool :=
  let unsigned := (Numeral.takeSign cs).2
  match unsigned.dropWhile (· ≠ '.') with
  | [] => false
  | _ :: places =>
    match unsigned.takeWhile (· ≠ '.') with
    | [] =>
      String.ofList places ∈ ["inf", "Inf", "INF"] ||
        (unsigned.length = cs.length &&
          (String.ofList places ∈ ["nan", "NaN", "NAN"] ||
            (places.head?.any isDigit && arePlaces places)))
    | whole => isNumberFrom whole places

/-! ## Forms of scalars -/

/-- The words for true, each in its three spellings. -/
def trueWords : List String :=
  ["yes", "Yes", "YES", "true", "True", "TRUE", "on", "On", "ON"]

/-- The words for false, each in its three spellings. -/
def falseWords : List String :=
  ["no", "No", "NO", "false", "False", "FALSE", "off", "Off", "OFF"]

/-- The words for null; nothing written is null too. -/
def nullWords : List String :=
  ["", "~", "null", "Null", "NULL"]

/-- The characters of a scalar without the line end behind the last of them. -/
def withoutLineEnd (cs : List Char) : List Char :=
  if 1 < cs.length && cs.getLast? = some '\n' then cs.dropLast else cs

/-- The marks that have no meaning where a value is expected. -/
def reservedMarks : List String :=
  ["!", "&", "*"]

/-- The meaning that a plain scalar shows by its form. -/
def Meaning.ofText (text : String) : Meaning :=
  let cs := withoutLineEnd text.toList
  let word := String.ofList cs
  if word ∈ trueWords ++ falseWords then .bool
  else if word ∈ nullWords then .null
  else if word = "<<" then .mergeKey
  else if word = "=" then .defaultKey
  else if word ∈ reservedMarks then .undefined
  else if isFloat cs then .float
  else if isInteger cs then .int
  else if (WrittenTime.ofChars? cs).any WrittenTime.isEvident then .timestamp
  else .text

end LatexLogic.Yaml
