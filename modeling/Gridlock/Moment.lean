import Gridlock.Number.Text

/-!
# Moments

* `Moment` : a date and a time of day
* `Moment.stamp`, `Moment.iso` : its text in reports and logs, and in data
-/

namespace Gridlock

structure Moment where
  year : Nat
  month : Nat
  day : Nat
  hour : Nat
  minute : Nat
  second : Nat
deriving DecidableEq, Repr

namespace Moment

/-- A number of at least `width` digits. -/
def padded (width n : Nat) : String :=
  let digits := Nat.toDigits 10 n
  String.ofList (Number.zeros (width - digits.length) ++ digits)

def date (m : Moment) : String :=
  padded 4 m.year ++ "-" ++ padded 2 m.month ++ "-" ++ padded 2 m.day

def time (m : Moment) : String :=
  padded 2 m.hour ++ ":" ++ padded 2 m.minute ++ ":" ++ padded 2 m.second

def stamp (m : Moment) : String := m.date ++ " " ++ m.time

def iso (m : Moment) : String := m.date ++ "T" ++ m.time

end Moment

end Gridlock
