/-! # Dates

Dates of the Gregorian calendar, extended to all years. A date has a number, counted in days, and
weeks start on Monday.
-/

namespace SemanticLayer

structure Date where
  year : Int
  month : Nat
  day : Nat
  deriving Repr, DecidableEq, Inhabited

namespace Date

def isLeap (year : Int) : Bool := year % 4 == 0 && (year % 100 != 0 || year % 400 == 0)

def monthLength (year : Int) : Nat → Nat
  | 2 => if isLeap year then 29 else 28
  | 4 | 6 | 9 | 11 => 30
  | _ => 31

def minYear : Int := -262143

def maxYear : Int := 262142

def isValid (d : Date) : Bool :=
  minYear ≤ d.year && d.year ≤ maxYear && 1 ≤ d.month && d.month ≤ 12 &&
    1 ≤ d.day && d.day ≤ monthLength d.year d.month

/-- The days from the first day of year 1 to the first day of a year. -/
def daysBeforeYear (year : Int) : Int :=
  365 * (year - 1) + (year - 1) / 4 - (year - 1) / 100 + (year - 1) / 400

def daysBeforeMonth (year : Int) (month : Nat) : Nat :=
  ((List.range (month - 1)).map fun i => monthLength year (i + 1)).foldl (· + ·) 0

def number (d : Date) : Int :=
  daysBeforeYear d.year + daysBeforeMonth d.year d.month + (d.day - 1 : Nat)

/-- The days since Monday. -/
def weekday (d : Date) : Nat := (d.number % 7).toNat

def previous (d : Date) : Date :=
  if 1 < d.day then { d with day := d.day - 1 }
  else if 1 < d.month then
    { d with month := d.month - 1, day := monthLength d.year (d.month - 1) }
  else { year := d.year - 1, month := 12, day := 31 }

def back : Nat → Date → Date
  | 0, d => d
  | n + 1, d => back n d.previous

end Date

/-- A date and a time of day, to the second. -/
structure Moment where
  date : Date
  hour : Nat := 0
  minute : Nat := 0
  second : Nat := 0
  /-- Whether it is the leap second behind that second. -/
  leap : Bool := false
  deriving Repr, DecidableEq, Inhabited

namespace Moment

def isValid (m : Moment) : Bool :=
  m.date.isValid && m.hour < 24 && m.minute < 60 && m.second < 60

/-- The seconds from the first moment of year 1, without leap seconds. -/
def number (m : Moment) : Int :=
  m.date.number * 86400 + (m.hour * 3600 + m.minute * 60 + m.second : Nat)

end Moment

end SemanticLayer
