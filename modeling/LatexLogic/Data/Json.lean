import LatexLogic.Data.Basic
import LatexLogic.Data.Display

/-!
# JSON text

The JSON form of a plain value on one line, with `", "` between the parts and `": "` after a key.
Inside a text the quote, the backslash and the control characters below U+0020 are escaped, and all
other characters stand for themselves. So the JSON form of a value never holds a line end. Values
that JSON does not know are written as the nearest ones that it does: pairs and sets as lists, the
others as texts.
-/

set_option autoImplicit false

namespace LatexLogic.Data

/-- One character of a JSON text. -/
def jsonChar (c : Char) : List Char :=
  if c = '"' then ['\\', '"']
  else if c = '\\' then ['\\', '\\']
  else if c = '\n' then ['\\', 'n']
  else if c = '\r' then ['\\', 'r']
  else if c = '\t' then ['\\', 't']
  else if c = '\x08' then ['\\', 'b']
  else if c = '\x0c' then ['\\', 'f']
  else if c.toNat < 0x20 then '\\' :: 'u' :: Text.hexDigits 4 c.toNat
  else [c]

/-- A JSON text between its quotes. -/
def jsonText (text : String) : String :=
  String.ofList ('"' :: text.toList.flatMap jsonChar ++ ['"'])

/-- The JSON form of a binary64 number. -/
def jsonFloat (x : Binary64) : String :=
  match x.shape with
  | .undefined => "NaN"
  | .infinite => if x.isNegative then "-Infinity" else "Infinity"
  | .finite _ _ => x.text

mutual

/-- The JSON form of a value. -/
def json : Data → String
  | .null => "null"
  | .bool b => if b then "true" else "false"
  | .int n => toString n
  | .float x => jsonFloat x
  | .text s => jsonText s
  | .list xs | .set xs => "[" ++ String.intercalate ", " (jsonItems xs) ++ "]"
  | .pair a b => "[" ++ json a ++ ", " ++ json b ++ "]"
  | .map es => "\x7b" ++ String.intercalate ", " (jsonEntries es) ++ "\x7d"
  | value@(.timestamp _) | value@(.bytes _) | value@(.again _) => jsonText value.plainText

/-- The JSON forms of the items of a list. -/
def jsonItems : List Data → List String
  | [] => []
  | x :: xs => json x :: jsonItems xs

/-- The JSON forms of the entries of a mapping. -/
def jsonEntries : List (Data × Data) → List String
  | [] => []
  | (key, value) :: es => (jsonText key.plainText ++ ": " ++ json value) :: jsonEntries es

end

/-- A mapping whose keys are texts. -/
def object (fields : List (String × Data)) : Data :=
  .map (fields.map fun field => (.text field.1, field.2))

end LatexLogic.Data
