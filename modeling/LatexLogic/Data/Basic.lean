import LatexLogic.Data.Timestamp
import LatexLogic.Number.Binary64

/-!
# Plain data

The values of which a syntax file is made: null, truth values, integers of any size, binary64
numbers, texts, timestamps, bytes, lists, pairs, sets, and mappings that keep the order in which
their keys were first written. A list or mapping that contains itself is written out once; where it
stands again inside itself there is a mark.

Two values are the same (`Data.same`) when they are equal as numbers, texts, lists and so on: truth
values count as the numbers zero and one, and the order of a mapping or set does not matter.
-/

set_option autoImplicit false

namespace LatexLogic

/-- A plain value. -/
inductive Data where
  | null
  | bool (value : Bool)
  | int (value : Int)
  | float (value : Binary64)
  | text (value : String)
  | timestamp (value : Timestamp)
  | bytes (value : List UInt8)
  | list (items : List Data)
  | pair (first second : Data)
  | set (items : List Data)
  | map (entries : List (Data × Data))
  /-- The mark of a list, or of a mapping, inside itself. -/
  | again (isMap : Bool)
  deriving Repr, Inhabited

namespace Data

/-- The value as an integer times a power of two, if it is a finite number. -/
def scaled? : Data → Option (Int × Int)
  | .bool b => some (if b then 1 else 0, 0)
  | .int n => some (n, 0)
  | .float x => x.scaled?
  | _ => none

/-- Whether a value counts as a number. -/
def isNumber : Data → Bool
  | .bool _ | .int _ | .float _ => true
  | _ => false

/-- Whether two numbers are equal. An infinite or undefined number equals itself only. -/
def sameNumber (a b : Data) : Bool :=
  match a.scaled?, b.scaled? with
  | some (m, p), some (n, q) => Binary64.compareScaled m p n q == .eq
  | none, none =>
    match a, b with
    | .float x, .float y => x == y
    | _, _ => false
  | _, _ => false

mutual

/-- Equality of values. -/
def same : Data → Data → Bool
  | .null, .null => true
  | .text s, .text t => s == t
  | .timestamp s, .timestamp t => s.same t
  | .bytes xs, .bytes ys => xs == ys
  | .list xs, .list ys => sameItems xs ys
  | .pair a b, .pair c d => same a c && same b d
  | .set xs, .set ys => xs.length == ys.length && sameMembers xs ys
  | .map es, .map fs => es.length == fs.length && sameEntries es fs
  | .again p, .again q => p == q
  | a, b => a.isNumber && b.isNumber && sameNumber a b

/-- Equality of lists, item by item. -/
def sameItems : List Data → List Data → Bool
  | [], [] => true
  | x :: xs, y :: ys => same x y && sameItems xs ys
  | _, _ => false

/-- Every member of the first set has an equal one in the second. -/
def sameMembers : List Data → List Data → Bool
  | [], _ => true
  | x :: xs, ys => (ys.any fun y => same x y) && sameMembers xs ys

/-- Every entry of the first mapping has an equal entry in the second. -/
def sameEntries : List (Data × Data) → List (Data × Data) → Bool
  | [], _ => true
  | (key, value) :: es, fs =>
    (fs.any fun entry => same key entry.1 && same value entry.2) && sameEntries es fs

end

/-- The values that count as empty: null, false, zero, the empty text, list and mapping, and so on.
A timestamp is never empty. -/
def isEmpty : Data → Bool
  | .null => true
  | .bool b => !b
  | .int n => n == 0
  | .float x => x.isZero
  | .text s => s.isEmpty
  | .bytes xs => xs.isEmpty
  | .list xs | .set xs => xs.isEmpty
  | .map es => es.isEmpty
  | .timestamp _ | .pair _ _ | .again _ => false

/-- Whether a value may be the key of a mapping: lists, sets and mappings may not, nor may pairs
with one of them. -/
def isKey : Data → Bool
  | .list _ | .set _ | .map _ | .again _ => false
  | .pair a b => a.isKey && b.isKey
  | _ => true

/-- The value under a text key. -/
def field? (entries : List (Data × Data)) (name : String) : Option Data :=
  (entries.find? fun entry => same entry.1 (.text name)).map Prod.snd

end Data

/-- Sets the value of a key. A key that is present keeps its position, a new one comes last. -/
def insertKeyed {κ α : Type} (sameKey : κ → κ → Bool) (key : κ) (value : α) :
    List (κ × α) → List (κ × α)
  | [] => [(key, value)]
  | entry :: rest =>
    if sameKey key entry.1 then (entry.1, value) :: rest
    else entry :: insertKeyed sameKey key value rest

/-! ## Order of keys

Numbers are ordered by value, texts by code point, bytes like texts, and timestamps of one sort by
time. Values of two different sorts are not ordered, nor are two nulls. -/

/-- Whether every two of the values can be ordered. -/
def Data.comparable (values : List Data) : Bool :=
  match values with
  | [] | [_] => true
  | .text _ :: rest => rest.all fun | .text _ => true | _ => false
  | .bytes _ :: rest => rest.all fun | .bytes _ => true | _ => false
  | .timestamp t :: rest => rest.all fun | .timestamp u => t.comparable u | _ => false
  | _ => values.all Data.isNumber

/-- Whether a value is the infinity of the given sign. -/
def Data.isInfinity (negative : Bool) : Data → Bool
  | .float x => x = Binary64.infinity negative
  | _ => false

/-- Whether one number is less than another. An undefined value is not, and no number is less than
it. -/
def Data.numberLess (a b : Data) : Bool :=
  match a.scaled?, b.scaled? with
  | some (m, p), some (n, q) => Binary64.compareScaled m p n q == .lt
  | none, some _ => a.isInfinity true
  | some _, none => b.isInfinity false
  | none, none => a.isInfinity true && b.isInfinity false

/-- Whether the first of two values that can be ordered may stand in front of the second. -/
def Data.le (a b : Data) : Bool :=
  match a, b with
  | .text s, .text t => s ≤ t
  | .bytes xs, .bytes ys => xs ≤ ys
  | .timestamp s, .timestamp t => s.instant ≤ t.instant
  | _, _ => !b.numberLess a

end LatexLogic
