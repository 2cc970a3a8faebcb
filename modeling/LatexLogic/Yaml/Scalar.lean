import LatexLogic.Data.Basic
import LatexLogic.Text.Base64
import LatexLogic.Yaml.Error
import LatexLogic.Yaml.Meaning

/-!
# Values of scalars

The value that the text of a scalar has under its meaning. Where the meaning was told by the form of
the text, there nearly always is one; where a tag asked for it, the text may be anything.

Underscores among the digits of a number count for nothing. An integer in sixties is the sum of its
places times their weights. A binary64 number in sixties is summed up from its last place to its
first, every product and every sum being rounded.
-/

set_option autoImplicit false

namespace LatexLogic.Yaml

/-! ## Numbers -/

/-- Splits the sign off a number whose underscores are dropped. There has to be a character. -/
def signedPart (cs : List Char) : Except ValueFault (Bool × List Char) :=
  match cs.filter (· ≠ '_') with
  | [] => .error .noCharacters
  | digits => .ok (Numeral.takeSign digits)

/-- An integer without the sign that stands in front of it. -/
def naturalValue (cs : List Char) : Except ValueFault Int :=
  match cs with
  | [] => .error .noCharacters
  | ['0'] => .ok 0
  | '0' :: 'b' :: digits => ofIntegerFault (Numeral.integer 2 digits)
  | '0' :: 'x' :: digits => ofIntegerFault (Numeral.integer 16 digits)
  | '0' :: _ => ofIntegerFault (Numeral.integer 8 cs)
  | _ => do
    let places ← (splitColons cs).mapM fun place => ofIntegerFault (Numeral.integer 10 place)
    return places.foldl (fun n place => 60 * n + place) 0

/-- The integer that a text stands for. -/
def integerValue (text : List Char) : Except ValueFault Int := do
  let (negative, digits) ← signedPart text
  let n ← naturalValue digits
  return if negative then -n else n

/-- A decimal number. -/
def decimalValue (cs : List Char) : Except ValueFault Binary64 :=
  match Numeral.binary64? cs with
  | some x => .ok x
  | none => .error (.noNumber (String.ofList cs))

/-- Adds up places in sixties, the last of them first, to a sum; the weight of the first of them is
given. -/
def addPlaces (sum : Binary64) (weight : Nat) : List Binary64 → Except ValueFault Binary64
  | [] => .ok sum
  | place :: places =>
    let factor := Binary64.ofScaled weight 0
    if factor.isInfinite then .error .placeTooLarge
    else addPlaces (sum.add (place.mul factor)) (weight * 60) places

/-- A binary64 number without the sign that stands in front of it. -/
def unsignedFloatValue (cs : List Char) : Except ValueFault Binary64 :=
  if cs = ['.', 'i', 'n', 'f'] then .ok (Binary64.infinity false)
  else if cs = ['.', 'n', 'a', 'n'] then .ok Binary64.undefinedValue
  else
    match splitColons cs with
    | [_] => decimalValue cs
    | parts => do
      let places ← parts.mapM decimalValue
      addPlaces (Binary64.ofScaled 0 0) 1 places.reverse

/-- The binary64 number that a text stands for. -/
def floatValue (text : List Char) : Except ValueFault Binary64 := do
  let (negative, digits) ← signedPart (text.map Char.toLower)
  let x ← unsignedFloatValue digits
  return if negative then x.neg else x

/-! ## Other values -/

/-- The truth value that a word stands for, in whatever letters it is written. -/
def truthValue (text : List Char) : Except ValueFault Bool :=
  let word := String.ofList (text.map Char.toLower)
  if word ∈ trueWords then .ok true
  else if word ∈ falseWords then .ok false
  else .error .noTruthValue

/-- The timestamp that a text stands for. -/
def timestampValue (text : List Char) : Except ValueFault Timestamp :=
  match WrittenTime.ofChars? (withoutLineEnd text) with
  | none => .error .noTimestamp
  | some t =>
    match t.value with
    | .ok value => .ok value
    | .error fault => .error (.calendar fault)

/-- The bytes that a text stands for. -/
def bytesValue (text : List Char) : Except YamlError (List UInt8) :=
  if text.all Numeral.isAscii then
    match Text.Base64.decode? text with
    | some bytes => .ok bytes
    | none => .error (.malformed "failed to decode base64 data")
  else .error (.malformed "failed to convert base64 data into ascii")

/-- A value or its fault as a part of a document. -/
def valueOr {α : Type} (make : α → Data) : Except ValueFault α → Except YamlError Data
  | .ok a => .ok (make a)
  | .error fault => .error (.value fault)

/-- The value of a text under a meaning. A text is no collection, and the two keys of special
meaning are no values. -/
def scalarValue (meaning : Meaning) (text : String) : Except YamlError Data :=
  match meaning with
  | .null => .ok .null
  | .bool => valueOr .bool (truthValue text.toList)
  | .int => valueOr .int (integerValue text.toList)
  | .float => valueOr .float (floatValue text.toList)
  | .timestamp => valueOr .timestamp (timestampValue text.toList)
  | .text => .ok (.text text)
  | .binary =>
    match bytesValue text.toList with
    | .ok bytes => .ok (.bytes bytes)
    | .error e => .error e
  | .sequence | .pairs | .mapping | .set => .error (.malformed "expected a collection")
  | .mergeKey | .defaultKey | .undefined =>
    .error (.malformed "could not determine a constructor for the tag")

end LatexLogic.Yaml
