import LatexLogic.Text.Printable
import LatexLogic.Text.Surrogate

/-!
# Quoted texts

The form in which a piece of input is shown inside a message. Single quotes enclose it, or double
quotes when it holds a single quote and no double quote. A backslash and the enclosing quote are
escaped by a backslash, line feed, carriage return and tab are written `\n`, `\r` and `\t`, and any
other character that is not printable is written by its code point in lower case hexadecimal
digits: two after `\x`, four after `\u`, eight after `\U`, whichever is the first to suffice. A list
of bytes is shown like the text of these code points, with a `b` in front and only the printable
ones of ASCII unescaped.
-/

set_option autoImplicit false

namespace LatexLogic.Text

/-- One lower case hexadecimal digit. -/
def hexDigit (n : Nat) : Char :=
  Nat.digitChar (n % 16)

/-- The `width` last hexadecimal digits of a number, zeros included. -/
def hexDigits : (width : Nat) → Nat → List Char
  | 0, _ => []
  | width + 1, n => hexDigits width (n / 16) ++ [hexDigit n]

/-- The escape that names a character by its code point. -/
def codePointEscape (c : Char) : List Char :=
  let n := codePoint c
  if n < 0x100 then '\\' :: 'x' :: hexDigits 2 n
  else if n < 0x10000 then '\\' :: 'u' :: hexDigits 4 n
  else '\\' :: 'U' :: hexDigits 8 n

/-- One character between quotes of the given kind, where some characters stand for themselves. -/
def quotedCharWhere (isPlain : Char → Bool) (quote c : Char) : List Char :=
  if c = quote || c = '\\' then ['\\', c]
  else if c = '\n' then ['\\', 'n']
  else if c = '\r' then ['\\', 'r']
  else if c = '\t' then ['\\', 't']
  else if isPlain c then [c]
  else codePointEscape c

/-- One character between quotes of the given kind. -/
def quotedChar (quote c : Char) : List Char :=
  quotedCharWhere isPrintable quote c

/-- The quote that encloses a text: single, unless that alone would have to be escaped. -/
def enclosingQuote (cs : List Char) : Char :=
  if '\'' ∈ cs && '"' ∉ cs then '"' else '\''

/-- The quoted form of a list of characters. -/
def quotedChars (cs : List Char) : List Char :=
  let quote := enclosingQuote cs
  quote :: cs.flatMap (quotedChar quote) ++ [quote]

/-- The quoted form of a text. -/
def quoted (text : String) : String :=
  String.ofList (quotedChars text.toList)

/-- The quoted form of a list of bytes. -/
def quotedBytes (bytes : List UInt8) : String :=
  let cs := bytes.map fun byte => Char.ofNat byte.toNat
  let quote := enclosingQuote cs
  let isPlain (c : Char) : Bool := 0x20 ≤ c.toNat && c.toNat < 0x7F
  String.ofList ('b' :: quote :: cs.flatMap (quotedCharWhere isPlain quote) ++ [quote])

end LatexLogic.Text
