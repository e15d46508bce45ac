import Conjunctive.Time.Basic

/-!
# Dates and moments as text

A date is written as year, month and day, parted by hyphens. A moment follows its date
after a blank; its microseconds are written only if there are any, and its offset only if
it is known. `display` is the form that a list of values shows.
-/

namespace Conjunctive

/-- A number with leading zeros up to a width. -/
def padded (width n : Nat) : String :=
  let digits := toString n
  "".pushn '0' (width - digits.length) ++ digits

/-- A span of some minutes, as days and seconds of which the seconds are not negative. -/
def spanText (minutes : Int) : String :=
  let days := Int.fdiv minutes Moment.minutesOfDay
  let seconds := Int.fmod minutes Moment.minutesOfDay * 60
  let parts := (if days = 0 then [] else ["days=" ++ toString days])
    ++ if seconds = 0 then [] else ["seconds=" ++ toString seconds]
  "datetime.timedelta(" ++ (if parts.isEmpty then "0" else String.intercalate ", " parts) ++ ")"

namespace TimeError

/-- The wording of an error. -/
def message : TimeError → String
  | year n => "year " ++ toString n ++ " is out of range"
  | month => "month must be in 1..12"
  | day => "day is out of range for month"
  | hour => "hour must be in 0..23"
  | minute => "minute must be in 0..59"
  | second => "second must be in 0..59"
  | offset minutes =>
    "offset must be a timedelta strictly between -timedelta(hours=24) and "
      ++ "timedelta(hours=24), not " ++ spanText minutes ++ "."

end TimeError

namespace Date

/-- A date as it is written. -/
def text (d : Date) : String :=
  padded 4 d.year ++ "-" ++ padded 2 d.month ++ "-" ++ padded 2 d.day

/-- A date as a list of values shows it. -/
def display (d : Date) : String :=
  "datetime.date(" ++ String.intercalate ", " ([d.year, d.month, d.day].map toString) ++ ")"

end Date

namespace Moment

/-- The offset of a clock as it is written. -/
def offsetText (minutes : Int) : String :=
  (if minutes < 0 then "-" else "+") ++ padded 2 (minutes.natAbs / 60) ++ ":"
    ++ padded 2 (minutes.natAbs % 60)

/-- A moment as it is written. -/
def text (m : Moment) : String :=
  m.date.text ++ " " ++ padded 2 m.hour ++ ":" ++ padded 2 m.minute ++ ":" ++ padded 2 m.second
    ++ (if m.micros = 0 then "" else "." ++ padded 6 m.micros)
    ++ (m.offset.map offsetText).getD ""

/-- The offset of a clock as a list of values shows it. -/
def offsetDisplay (minutes : Int) : String :=
  if minutes = 0 then "datetime.timezone.utc"
  else "datetime.timezone(" ++ spanText minutes ++ ")"

/-- A moment as a list of values shows it: without its last parts if they are zero. -/
def display (m : Moment) : String :=
  let parts := [m.date.year, m.date.month, m.date.day, m.hour, m.minute]
    ++ (if m.micros = 0 then if m.second = 0 then [] else [m.second] else [m.second, m.micros])
  "datetime.datetime(" ++ String.intercalate ", " (parts.map toString)
    ++ (m.offset.map fun o => ", tzinfo=" ++ offsetDisplay o).getD "" ++ ")"

end Moment

namespace Time

/-- A time as it is written. -/
def text : Time → String
  | date d => d.text
  | moment m => m.text

/-- A time as a list of values shows it. -/
def display : Time → String
  | date d => d.display
  | moment m => m.display

end Time

end Conjunctive
