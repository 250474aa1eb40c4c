/-!
# Days and moments

A day of the calendar, and a time of a day, which may say how far it is ahead of universal time. Two
moments that say so are the same when they are at the same universal time.
-/

namespace NullableMarker

/-! ## Digits -/

/-- The decimal digits of a number, at least `width` of them. -/
def paddedDigits (width n : Nat) : String :=
  let digits := Nat.toDigits 10 n
  String.ofList (List.replicate (width - digits.length) '0' ++ digits)

/-! ## Days -/

/-- A day. -/
structure Day where
  year : Nat
  month : Nat
  day : Nat
  deriving Repr, DecidableEq, Inhabited

namespace Day

/-- The year has a day more in February. -/
def isLeap (year : Nat) : Bool := year % 4 == 0 && (year % 100 != 0 || year % 400 == 0)

/-- The days of a month. -/
def ofMonth (year month : Nat) : Nat :=
  if month == 2 then (if isLeap year then 29 else 28)
  else if [4, 6, 9, 11].contains month then 30
  else 31

/-- The number of a day, counted from the first day of year one. -/
def number (d : Day) : Nat :=
  let years := d.year - 1
  let months := (List.range (d.month - 1)).map fun m => ofMonth d.year (m + 1)
  365 * years + years / 4 - years / 100 + years / 400 + months.foldl (· + ·) 0 + d.day

/-- The text of a day. -/
def text (d : Day) : String :=
  "-".intercalate [paddedDigits 4 d.year, paddedDigits 2 d.month, paddedDigits 2 d.day]

/-- How messages show a day. -/
def describe (d : Day) : String := s!"datetime.date({d.year}, {d.month}, {d.day})"

end Day

/-! ## Moments -/

/-- A time of a day, to the millionth of a second. -/
structure Moment where
  day : Day
  hour : Nat := 0
  minute : Nat := 0
  second : Nat := 0
  micro : Nat := 0
  /-- The seconds that the time is ahead of universal time, if it is said. -/
  ahead : Option Int := none
  deriving Repr, DecidableEq, Inhabited

namespace Moment

/-- The seconds of a day. -/
def secondsOfDay : Nat := 86400

/-- The millionths of a second from the first day on, for a clock that is ahead as said. -/
def universal (m : Moment) (ahead : Int) : Int :=
  let seconds : Int := secondsOfDay * m.day.number + 3600 * m.hour + 60 * m.minute + m.second
  1000000 * (seconds - ahead) + m.micro

/-- The same moment. One that does not say how far it is ahead is the same as none that does. -/
def isSame (m n : Moment) : Bool :=
  match m.ahead, n.ahead with
  | some a, some b => m.universal a == n.universal b
  | none, none => m == n
  | _, _ => false

/-- The text of the seconds that a time is ahead. -/
def aheadText (ahead : Int) : String :=
  let size := ahead.natAbs
  let seconds := size % 60
  (if ahead < 0 then "-" else "+") ++ paddedDigits 2 (size / 3600) ++ ":"
    ++ paddedDigits 2 (size / 60 % 60) ++ (if seconds == 0 then "" else ":" ++ paddedDigits 2 seconds)

/-- The text of a moment. -/
def text (m : Moment) : String :=
  let time := ":".intercalate
    [paddedDigits 2 m.hour, paddedDigits 2 m.minute, paddedDigits 2 m.second]
  let fraction := if m.micro == 0 then "" else "." ++ paddedDigits 6 m.micro
  m.day.text ++ " " ++ time ++ fraction ++ (m.ahead.map aheadText).getD ""

/-- How messages show the seconds that a time is ahead: as days, which may be negative, and seconds,
which are not. -/
def describeAhead (ahead : Int) : String :=
  if ahead == 0 then "datetime.timezone.utc"
  else
    let days := ahead.fdiv secondsOfDay
    let seconds := ahead.fmod secondsOfDay
    let parts := (if days == 0 then [] else [s!"days={days}"])
      ++ (if seconds == 0 then [] else [s!"seconds={seconds}"])
    "datetime.timezone(datetime.timedelta(" ++ ", ".intercalate parts ++ "))"

/-- How messages show a moment. Seconds are left out when nothing of them is there. -/
def describe (m : Moment) : String :=
  let fraction := if m.micro == 0 then [] else [m.micro]
  let seconds := if m.second == 0 && m.micro == 0 then [] else m.second :: fraction
  let fields := [m.day.year, m.day.month, m.day.day, m.hour, m.minute] ++ seconds
  let zone := m.ahead.map fun ahead => "tzinfo=" ++ describeAhead ahead
  "datetime.datetime(" ++ ", ".intercalate (fields.map toString ++ zone.toList) ++ ")"

end Moment

end NullableMarker
