import Conjunctive.Yaml.Scalar
import Conjunctive.Time.Basic

/-!
# Times in YAML texts

A time is a year, a month and a day, parted by hyphens. After a letter `t` or blanks the
time of day may follow, with a fraction of a second and the zone: the letter `Z`, or the
offset of its clocks in hours and perhaps minutes.
-/

namespace Conjunctive

namespace Yaml

/-- The parts of a time as they are written. -/
structure TimeParts where
  year : List Char
  month : List Char
  day : List Char
  /-- Hours, minutes, seconds and the fraction of a second. -/
  clock : Option (List Char × List Char × List Char × List Char)
  /-- The sign of an offset, its hours and its minutes; or universal time. -/
  zone : Option (Option (Bool × List Char × List Char))

/-- A zone after blanks, up to the end of a text. -/
def zone? (cs : List Char) : Option (Option (Option (Bool × List Char × List Char))) :=
  match cs.dropWhile isBlank with
  | [] => if cs.isEmpty then some none else none
  | ['Z'] => some (some none)
  | c :: ds => do
    if c != '+' && c != '-' then none
    else do
      let (hours, rest) ← digits? 1 2 ds
      match afterSign? ':' rest with
      | none => if rest.isEmpty then some (some (some (c == '-', hours, []))) else none
      | some rest => do
        let (minutes, rest) ← digits? 2 2 rest
        if rest.isEmpty then some (some (some (c == '-', hours, minutes))) else none

/-- The parts of a time that starts with a day whose month and day have at least so many
digits. -/
def timePartsFrom? (least : Nat) (cs : List Char) : Option TimeParts := do
  let (year, cs) ← digits? 4 4 cs
  let (month, cs) ← digits? least 2 (← afterSign? '-' cs)
  let (day, cs) ← digits? least 2 (← afterSign? '-' cs)
  match cs with
  | [] => pure ⟨year, month, day, none, none⟩
  | c :: rest => do
    let cs ←
      if c = 't' ∨ c = 'T' then some rest
      else if isBlank c then some (rest.dropWhile isBlank)
      else none
    let (hour, cs) ← digits? 1 2 cs
    let (minute, cs) ← digits? 2 2 (← afterSign? ':' cs)
    let (second, cs) ← digits? 2 2 (← afterSign? ':' cs)
    let rest := (afterSign? '.' cs).getD []
    let fraction := rest.takeWhile Char.isDigit
    let zone ← zone? (if cs.head? = some '.' then rest.dropWhile Char.isDigit else cs)
    pure ⟨year, month, day, some (hour, minute, second, fraction), zone⟩

/-- A text without a newline at its end. -/
def withoutNewline (cs : List Char) : List Char :=
  if cs.getLast? = some '\n' then cs.dropLast else cs

/-- The parts of a time. -/
def timeParts? (s : String) : Option TimeParts := timePartsFrom? 1 (withoutNewline s.toList)

/-- Whether a scalar looks like a time: a day in full, or the time of a day. -/
def isTime (cs : List Char) : Bool :=
  isDay cs || ((timePartsFrom? 1 cs).any fun p => p.clock.isSome)

/-- The offset of a zone in minutes. -/
def offset? : Option (Option (Bool × List Char × List Char)) →
    Except TimeError (Option Int)
  | none => .ok none
  | some none => .ok (some 0)
  | some (some (negative, hours, minutes)) =>
    let span := Literal.natural hours * 60 + Literal.natural minutes
    (Moment.checkOffset (Literal.signed negative span)).map some

/-- The time that its parts make. -/
def TimeParts.time? (p : TimeParts) : Except TimeError Time := do
  let date := Date.make (Literal.natural p.year) (Literal.natural p.month) (Literal.natural p.day)
  match p.clock with
  | none => date.map Time.date
  | some (hour, minute, second, fraction) => do
    let offset ← offset? p.zone
    let micros := Literal.natural ((fraction ++ List.replicate 6 '0').take 6)
    let moment ← Moment.make (← date) (Literal.natural hour) (Literal.natural minute)
      (Literal.natural second) micros offset
    pure (.moment moment)

/-- The time that a scalar is. -/
def time? (s : String) : Except ReadError Time :=
  match timeParts? s with
  | none => .error .noTime
  | some p => p.time?.mapError .time

end Yaml

end Conjunctive
