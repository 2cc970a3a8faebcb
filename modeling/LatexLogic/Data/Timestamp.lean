/-!
# Timestamps

A day of the calendar, or a moment: a day with a time of day. A moment may say how far its clock is
ahead of universal time. Only then is it an instant, and two such moments are the same when they are
the same instant, whatever their clocks show.

`Timestamp.ofFields` checks the fields one after the other. The calendar is the Gregorian one for
all years from 1 on.
-/

set_option autoImplicit false

namespace LatexLogic

/-- A day, month and year. -/
structure Day where
  /-- The year. -/
  year : Nat
  /-- The month, counted from one. -/
  month : Nat
  /-- The day of the month, counted from one. -/
  day : Nat
  deriving DecidableEq, Repr

/-- A time of day. -/
structure Clock where
  /-- The hour. -/
  hour : Nat
  /-- The minute. -/
  minute : Nat
  /-- The second. -/
  second : Nat
  /-- The millionths of a second. -/
  micro : Nat
  deriving DecidableEq, Repr

/-- A day or a moment. -/
inductive Timestamp where
  | day (d : Day)
  /-- A moment, with the minutes that its clock is ahead of universal time, if they are known. -/
  | moment (d : Day) (c : Clock) (offset : Option Int)
  deriving DecidableEq, Repr

/-- Why fields make no timestamp. -/
inductive CalendarFault where
  | year (n : Nat)
  | month
  | day
  | hour
  | minute
  | second
  | offset (minutes : Int)
  deriving DecidableEq, Repr

namespace Day

/-- Every fourth year is a leap year, of the centuries every fourth one. -/
def isLeapYear (year : Nat) : Bool :=
  year % 4 = 0 && (year % 100 ≠ 0 || year % 400 = 0)

/-- The number of days of a month. -/
def daysInMonth (year month : Nat) : Nat :=
  if month = 2 then if isLeapYear year then 29 else 28
  else if month ∈ [4, 6, 9, 11] then 30 else 31

/-- The days of a year in front of a month. -/
def daysBefore (year month : Nat) : Nat :=
  (List.range (month - 1)).foldl (fun days m => days + daysInMonth year (m + 1)) 0

/-- The number of a day, the first day of the year 1 being the first. -/
def number (d : Day) : Nat :=
  let years := d.year - 1
  365 * years + years / 4 - years / 100 + years / 400 + daysBefore d.year d.month + d.day

end Day

namespace Timestamp

/-! ## Checking -/

/-- Refuses a day that is not in the calendar. -/
def checkDay (d : Day) : Except CalendarFault Unit :=
  if d.year = 0 then .error (.year d.year)
  else if d.month = 0 || 12 < d.month then .error .month
  else if d.day = 0 || Day.daysInMonth d.year d.month < d.day then .error .day
  else .ok ()

/-- Refuses a time that no clock shows. -/
def checkClock (c : Clock) : Except CalendarFault Unit :=
  if 24 ≤ c.hour then .error .hour
  else if 60 ≤ c.minute then .error .minute
  else if 60 ≤ c.second then .error .second
  else .ok ()

/-- The minutes of a day. -/
def minutesPerDay : Nat := 1440

/-- Refuses an offset of a day or more. -/
def checkOffset : Option Int → Except CalendarFault Unit
  | none => .ok ()
  | some minutes =>
    if minutesPerDay ≤ minutes.natAbs then .error (.offset minutes) else .ok ()

/-- The timestamp of a day and possibly a clock with its offset. The offset is checked first. -/
def ofFields (d : Day) (time? : Option (Clock × Option Int)) : Except CalendarFault Timestamp :=
  match time? with
  | none => do
    checkDay d
    return .day d
  | some (clock, offset) => do
    checkOffset offset
    checkDay d
    checkClock clock
    return .moment d clock offset

/-! ## Order -/

/-- The millionths of a second from the beginning of the calendar. -/
def instant : Timestamp → Int
  | day d => d.number * 86400000000
  | moment d c offset =>
    let seconds : Int := ((d.number * 24 + c.hour) * 60 + c.minute) * 60 + c.second
    (seconds - offset.getD 0 * 60) * 1000000 + c.micro

/-- Whether two timestamps are of one sort, so that one of them is the earlier: both days, both
moments at an unknown place, or both instants. -/
def comparable : Timestamp → Timestamp → Bool
  | day _, day _ => true
  | moment _ _ offset, moment _ _ offset' => offset.isSome == offset'.isSome
  | _, _ => false

/-- Whether two timestamps are the same. -/
def same (s t : Timestamp) : Bool :=
  s.comparable t && s.instant == t.instant

/-! ## Text -/

/-- A number with zeros in front of it. -/
def padded (width n : Nat) : String :=
  let digits := toString n
  String.ofList (List.replicate (width - digits.length) '0') ++ digits

/-- The text of a day. -/
def dayText (d : Day) : String :=
  padded 4 d.year ++ "-" ++ padded 2 d.month ++ "-" ++ padded 2 d.day

/-- The text of a time of day, millionths being shown if there are any. -/
def clockText (c : Clock) : String :=
  padded 2 c.hour ++ ":" ++ padded 2 c.minute ++ ":" ++ padded 2 c.second ++
    (if c.micro = 0 then "" else "." ++ padded 6 c.micro)

/-- The text of an offset. -/
def offsetText (minutes : Int) : String :=
  (if minutes < 0 then "-" else "+") ++ padded 2 (minutes.natAbs / 60) ++ ":" ++
    padded 2 (minutes.natAbs % 60)

/-- The text of a timestamp where it stands for itself. -/
def text : Timestamp → String
  | day d => dayText d
  | moment d c offset =>
    dayText d ++ " " ++ clockText c ++ ((offset.map offsetText).getD "")

/-- A span of minutes inside a message: whole days, rounded down, and seconds. -/
def displaySpan (minutes : Int) : String :=
  let days := minutes.fdiv minutesPerDay
  let seconds := minutes.fmod minutesPerDay * 60
  let parts :=
    (if days = 0 then [] else ["days=" ++ toString days]) ++
      (if seconds = 0 then [] else ["seconds=" ++ toString seconds])
  "datetime.timedelta(" ++ (if parts.isEmpty then "0" else String.intercalate ", " parts) ++ ")"

/-- An offset inside a message. -/
def displayOffset (minutes : Int) : String :=
  if minutes = 0 then "datetime.timezone.utc"
  else "datetime.timezone(" ++ displaySpan minutes ++ ")"

/-- A timestamp inside a message. Seconds are shown if they or the millionths are not zero, and
millionths if they are not. -/
def display : Timestamp → String
  | day d =>
    "datetime.date(" ++ String.intercalate ", " ([d.year, d.month, d.day].map toString) ++ ")"
  | moment d c offset =>
    let seconds : List Nat :=
      if c.micro ≠ 0 then [c.second, c.micro] else if c.second ≠ 0 then [c.second] else []
    let numbers := [d.year, d.month, d.day, c.hour, c.minute] ++ seconds
    let zone := (offset.map fun minutes => ["tzinfo=" ++ displayOffset minutes]).getD []
    "datetime.datetime(" ++ String.intercalate ", " (numbers.map toString ++ zone) ++ ")"

end Timestamp

/-- The message of a fault. -/
def CalendarFault.message : CalendarFault → String
  | year n => "year " ++ toString n ++ " is out of range"
  | month => "month must be in 1..12"
  | day => "day is out of range for month"
  | hour => "hour must be in 0..23"
  | minute => "minute must be in 0..59"
  | second => "second must be in 0..59"
  | offset minutes =>
    "offset must be a timedelta strictly between -timedelta(hours=24) and timedelta(hours=24), " ++
      "not " ++ Timestamp.displaySpan minutes ++ "."

end LatexLogic
