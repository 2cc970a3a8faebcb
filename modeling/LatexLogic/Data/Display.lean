import LatexLogic.Data.Basic
import LatexLogic.Number.Numeral
import LatexLogic.Number.Shortest
import LatexLogic.Text.Quoted

/-!
# Values inside messages

The form in which a message shows a plain value: texts are quoted, lists stand in brackets, pairs in
parentheses, mappings and sets in braces, with `", "` between the parts and `": "` after a key; null
is `None`, the truth values are `True` and `False`, and a number that is not an integer has its
shortest digits. Three dots stand for a list or mapping inside itself.

Not every value can be written: an integer can have too many digits, and a value can be nested too
deeply for the host.
-/

set_option autoImplicit false

namespace LatexLogic

/-- What can stand in the way of an answer. -/
inductive Obstacle where
  /-- Something is nested too deeply. -/
  | depth
  /-- A number has too many digits to be written. -/
  | digits
  /-- A value is not of the sort that is needed. -/
  | sort
  deriving DecidableEq, Repr

/-- Whether an error is reported even so: that a number cannot be written is an error of the same
class as the one in whose message it would have stood. -/
def Obstacle.isReported : Obstacle → Bool
  | digits => true
  | depth | sort => false

namespace Data

mutual

/-- The form of a value inside a message. -/
def display : Data → String
  | .null => "None"
  | .bool b => if b then "True" else "False"
  | .int n => toString n
  | .float x => x.text
  | .text s => Text.quoted s
  | .timestamp t => t.display
  | .bytes xs => Text.quotedBytes xs
  | .list xs => "[" ++ String.intercalate ", " (displayItems xs) ++ "]"
  | .pair a b => "(" ++ display a ++ ", " ++ display b ++ ")"
  | .set xs =>
    if xs.isEmpty then "set()"
    else "\x7b" ++ String.intercalate ", " (displayItems xs) ++ "\x7d"
  | .map es => "\x7b" ++ String.intercalate ", " (displayEntries es) ++ "\x7d"
  | .again isMap => if isMap then "\x7b...\x7d" else "[...]"

/-- The forms of the items of a list. -/
def displayItems : List Data → List String
  | [] => []
  | x :: xs => display x :: displayItems xs

/-- The forms of the entries of a mapping. -/
def displayEntries : List (Data × Data) → List String
  | [] => []
  | (key, value) :: es => (display key ++ ": " ++ display value) :: displayEntries es

end

/-! ## Limits -/

mutual

/-- Whether a value holds an integer that has too many digits to be written. -/
def hasLongInteger : Data → Bool
  | .int n => Numeral.isTooLong n
  | .list xs | .set xs => haveLongInteger xs
  | .pair a b => hasLongInteger a || hasLongInteger b
  | .map es => entriesHaveLongInteger es
  | _ => false

/-- Whether one of several values holds such an integer. -/
def haveLongInteger : List Data → Bool
  | [] => false
  | x :: xs => hasLongInteger x || haveLongInteger xs

/-- Whether a key or a value of a mapping holds such an integer. -/
def entriesHaveLongInteger : List (Data × Data) → Bool
  | [] => false
  | (key, value) :: es =>
    hasLongInteger key || hasLongInteger value || entriesHaveLongInteger es

end

mutual

/-- How many collections stand inside each other in a value. -/
def depth : Data → Nat
  | .list xs | .set xs => depthItems xs + 1
  | .pair a b => max (depth a) (depth b) + 1
  | .map es => depthEntries es + 1
  | _ => 0

/-- The largest depth of several values. -/
def depthItems : List Data → Nat
  | [] => 0
  | x :: xs => max (depth x) (depthItems xs)

/-- The largest depth of the keys and values of a mapping. -/
def depthEntries : List (Data × Data) → Nat
  | [] => 0
  | (key, value) :: es => max (max (depth key) (depth value)) (depthEntries es)

end

/-- What stands in the way of writing values down one after the other. Whether a value is written down
without nesting too deeply is for the host to say; a number with too many digits is never written. -/
def writingObstacle? (shows : Data → Bool) (values : List Data) : Option Obstacle :=
  values.findSome? fun value =>
    if !shows value then some .depth else if value.hasLongInteger then some .digits else none

/-- A message that shows some values, or what is said if one of them cannot be written. -/
def messageShowing (values : List Data) (message : String) : String :=
  if haveLongInteger values then Numeral.tooLongMessage else message

/-- The form of a value where it stands for itself: a text goes unquoted, and a timestamp is written
with dashes and colons. -/
def plainText : Data → String
  | .text s => s
  | .timestamp t => t.text
  | value => value.display

end Data

end LatexLogic
