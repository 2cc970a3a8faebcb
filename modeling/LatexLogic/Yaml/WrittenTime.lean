import LatexLogic.Data.Timestamp
import LatexLogic.Number.Numeral

/-!
# Timestamps as they are written

A day is written as year, month and day with dashes between them. For a moment a time of day
follows, behind a letter `T` or blanks, with colons between its parts; a point and further places
may stand behind the seconds, and at the end the offset from universal time, or a `Z` for none.

The reader splits a whole text into these parts, and `WrittenTime.value` checks them against the
calendar.
-/

set_option autoImplicit false

namespace LatexLogic.Yaml

/-- A time of day, with the minutes that it is ahead of universal time. -/
structure WrittenClock where
  /-- The digits of the hour. -/
  hour : List Char
  /-- The digits of the minute. -/
  minute : List Char
  /-- The digits of the second. -/
  second : List Char
  /-- The digits behind the point. -/
  places : List Char
  /-- The offset in minutes. -/
  offset : Option Int
  deriving DecidableEq, Repr

/-- A day, possibly with a time of day. -/
structure WrittenTime where
  /-- The digits of the year. -/
  year : List Char
  /-- The digits of the month. -/
  month : List Char
  /-- The digits of the day. -/
  day : List Char
  /-- The time of day. -/
  clock? : Option WrittenClock
  deriving DecidableEq, Repr

namespace WrittenTime

/-! ## Reading -/

/-- The decimal digits. -/
def isDigit (c : Char) : Bool :=
  Numeral.isDigitIn 10 c

/-- The blanks between the parts. -/
def isGap (c : Char) : Bool :=
  c = ' ' || c = '\t'

/-- Takes digits off the front, at least and at most the given numbers of them. -/
def takeDigits? (least most : Nat) (cs : List Char) : Option (List Char × List Char) :=
  let digits := (cs.take most).takeWhile isDigit
  if least ≤ digits.length then some (digits, cs.drop digits.length) else none

/-- Takes a given character off the front. -/
def takeMark? (mark : Char) : List Char → Option (List Char)
  | [] => none
  | c :: cs => if c = mark then some cs else none

/-- Takes off what separates the day from the time. -/
def takeSeparator? : List Char → Option (List Char)
  | 'T' :: cs | 't' :: cs => some cs
  | c :: cs => if isGap c then some (cs.dropWhile isGap) else none
  | [] => none

/-- The offset at the end of a text, if there is one and nothing behind it. -/
def offset? (cs : List Char) : Option (Option Int) :=
  match cs with
  | [] => some none
  | _ =>
    match cs.dropWhile isGap with
    | ['Z'] => some (some 0)
    | sign :: cs => do
      if sign ≠ '-' && sign ≠ '+' then none
      let (hour, cs) ← takeDigits? 1 2 cs
      let (minute, cs) ←
        match cs with
        | ':' :: cs => takeDigits? 2 2 cs
        | _ => some ([], cs)
      if !cs.isEmpty then none
      let minutes : Int := 60 * Numeral.valueIn 10 hour + Numeral.valueIn 10 minute
      return some (if sign = '-' then -minutes else minutes)
    | [] => none

/-- The time of day at the end of a text. -/
def clockOf? (cs : List Char) : Option WrittenClock := do
  let (hour, cs) ← takeDigits? 1 2 cs
  let (minute, cs) ← takeDigits? 2 2 (← takeMark? ':' cs)
  let (second, cs) ← takeDigits? 2 2 (← takeMark? ':' cs)
  let (places, cs) : List Char × List Char :=
    match cs with
    | '.' :: cs => (cs.takeWhile isDigit, cs.dropWhile isDigit)
    | _ => ([], cs)
  return ⟨hour, minute, second, places, ← offset? cs⟩

/-- The parts of a text that is a timestamp. -/
def ofChars? (cs : List Char) : Option WrittenTime := do
  let (year, cs) ← takeDigits? 4 4 cs
  let (month, cs) ← takeDigits? 1 2 (← takeMark? '-' cs)
  let (day, cs) ← takeDigits? 1 2 (← takeMark? '-' cs)
  if cs.isEmpty then return ⟨year, month, day, none⟩
  else return ⟨year, month, day, some (← clockOf? (← takeSeparator? cs))⟩

/-- Whether a timestamp can be told by its form alone. A day without a time needs two digits for its
month and its day. -/
def isEvident (t : WrittenTime) : Bool :=
  t.clock?.isSome || (t.month.length = 2 && t.day.length = 2)

/-! ## Values -/

/-- The millionths of a second that places behind a point stand for; further places are cut off. -/
def microOf (places : List Char) : Nat :=
  let kept := places.take 6
  Numeral.valueIn 10 kept * Nat.pow 10 (6 - kept.length)

/-- The time of day that is written. -/
def clockValue (c : WrittenClock) : Clock :=
  ⟨Numeral.valueIn 10 c.hour, Numeral.valueIn 10 c.minute, Numeral.valueIn 10 c.second,
    microOf c.places⟩

/-- The timestamp that is written, if it is in the calendar. -/
def value (t : WrittenTime) : Except CalendarFault Timestamp :=
  Timestamp.ofFields
    ⟨Numeral.valueIn 10 t.year, Numeral.valueIn 10 t.month, Numeral.valueIn 10 t.day⟩
    (t.clock?.map fun c => (clockValue c, c.offset))

end WrittenTime

end LatexLogic.Yaml
