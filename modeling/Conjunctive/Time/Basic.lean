/-!
# Dates and moments

A date is a day of the Gregorian calendar, from the year 1 to the year 9999. A moment
is a time of day on a date, down to the microsecond, perhaps together with the offset
of its clock from universal time. Moments with an offset are the same when they denote
one instant; a moment without one is the same only as others without one.
-/

namespace Conjunctive

/-- Why there is no such date, or no such time of day. -/
inductive TimeError where
  | year (n : Nat)
  | month
  | day
  | hour
  | minute
  | second
  /-- The offset, in minutes, is a day or more. -/
  | offset (minutes : Int)
  deriving DecidableEq

/-- A day of the calendar. -/
structure Date where
  year : Nat
  month : Nat
  day : Nat
  deriving DecidableEq, Hashable

namespace Date

/-- Whether a year has a leap day. -/
def isLeap (year : Nat) : Bool := year % 4 == 0 && (year % 100 != 0 || year % 400 == 0)

/-- The number of days of a month. -/
def daysIn (year month : Nat) : Nat :=
  if month = 2 then if isLeap year then 29 else 28
  else if [4, 6, 9, 11].contains month then 30
  else 31

/-- The date with a year, a month and a day. -/
def make (year month day : Nat) : Except TimeError Date :=
  if year = 0 ∨ 9999 < year then .error (.year year)
  else if month = 0 ∨ 12 < month then .error .month
  else if day = 0 ∨ daysIn year month < day then .error .day
  else .ok ⟨year, month, day⟩

/-- The number of days from the first day of the year 1 to a date. -/
def ordinal (d : Date) : Nat :=
  let years := d.year - 1
  let days := years * 365 + years / 4 - years / 100 + years / 400 + (d.day - 1)
  (List.range (d.month - 1)).foldl (fun n m => n + daysIn d.year (m + 1)) days

end Date

/-- A time of day on a date. The offset of the clock, if it is known, is given in
minutes. -/
structure Moment where
  date : Date
  hour : Nat
  minute : Nat
  second : Nat
  micros : Nat
  offset : Option Int
  deriving DecidableEq, Hashable

namespace Moment

/-- The number of minutes of a day. -/
def minutesOfDay : Nat := 24 * 60

/-- The offset of some minutes, which must be less than a day. -/
def checkOffset (minutes : Int) : Except TimeError Int :=
  if minutes.natAbs < minutesOfDay then .ok minutes else .error (.offset minutes)

/-- The moment at a time of day on a date. -/
def make (date : Date) (hour minute second micros : Nat) (offset : Option Int) :
    Except TimeError Moment :=
  if 23 < hour then .error .hour
  else if 59 < minute then .error .minute
  else if 59 < second then .error .second
  else .ok ⟨date, hour, minute, second, micros, offset⟩

/-- The microseconds from the beginning of the year 1 to a moment, by universal time if
the offset is known and by the clock otherwise. -/
def instant (m : Moment) : Int :=
  let minutes := (m.date.ordinal * minutesOfDay + m.hour * 60 + m.minute : Int)
    - m.offset.getD 0
  (minutes * 60 + m.second) * 1000000 + m.micros

end Moment

/-- A date or a moment. -/
inductive Time where
  | date (d : Date)
  | moment (m : Moment)
  deriving DecidableEq

end Conjunctive
