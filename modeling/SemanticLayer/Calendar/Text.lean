import SemanticLayer.Calendar.Date
import SemanticLayer.Number.Decimal
import SemanticLayer.Text.Space

/-! # Dates as text

Dates are written `2024-05-17`, moments `2024-05-17 13:45:10`. Reading is more liberal: numbers may have
fewer digits and space before them, and a `T` or no space at all may stand between date and time.
-/

namespace SemanticLayer

def skipSpace (cs : List Char) : List Char := cs.dropWhile Text.isSpace

def leadingDigits (cs : List Char) : List Char := cs.takeWhile Char.isDigit

def readNumber? (width : Nat) (cs : List Char) : Option (Nat × List Char) :=
  let cs := skipSpace cs
  let digits := (leadingDigits cs).take width
  if digits.isEmpty then none else some (Number.ofDigits digits, cs.drop digits.length)

def behind? (c : Char) : List Char → Option (List Char)
  | [] => none
  | d :: rest => if c = d then some rest else none

namespace Date

/-- A year: up to four digits, any number of them behind a sign. -/
def readYear? (cs : List Char) : Option (Int × List Char) :=
  match skipSpace cs with
  | '-' :: rest => signed (-1) rest
  | '+' :: rest => signed 1 rest
  | cs => (readNumber? 4 cs).map fun (n, rest) => ((n : Int), rest)
where
  signed (sign : Int) (cs : List Char) : Option (Int × List Char) :=
    let digits := leadingDigits cs
    if digits.isEmpty then none
    else some (sign * Number.ofDigits digits, cs.drop digits.length)

def read? (cs : List Char) : Option (Date × List Char) := do
  let (year, cs) ← readYear? cs
  let (month, cs) ← readNumber? 2 (← behind? '-' cs)
  let (day, cs) ← readNumber? 2 (← behind? '-' cs)
  let d : Date := { year, month, day }
  if d.isValid then return (d, cs) else none

def padded (width n : Nat) : String :=
  let ds := toString n
  String.ofList (List.replicate (width - ds.length) '0') ++ ds

/-- The text of a year; outside of four digits it has a sign. -/
def yearText (year : Int) : String :=
  if 0 ≤ year && year ≤ 9999 then padded 4 year.toNat
  else (if year < 0 then "-" else "+") ++ padded 4 year.natAbs

def render (d : Date) : String :=
  yearText d.year ++ "-" ++ padded 2 d.month ++ "-" ++ padded 2 d.day

end Date

namespace Moment

/-- A time of day. Second 60 is the leap second behind second 59. -/
def readClock? (date : Date) (cs : List Char) : Option (Moment × List Char) := do
  let (hour, cs) ← readNumber? 2 cs
  let (minute, cs) ← readNumber? 2 (← behind? ':' cs)
  let (second, cs) ← readNumber? 2 (← behind? ':' cs)
  let m : Moment := { date, hour, minute, second := min second 59, leap := second == 60 }
  if m.isValid && second ≤ 60 then return (m, cs) else none

def read? (cs : List Char) : Option Moment := do
  let (date, cs) ← Date.read? cs
  let clock := match cs with
    | 'T' :: rest => rest
    | cs => cs
  match ← readClock? date clock with
  | (m, []) => return m
  | _ => none

def render (m : Moment) : String :=
  m.date.render ++ " " ++ Date.padded 2 m.hour ++ ":" ++ Date.padded 2 m.minute ++ ":" ++
    Date.padded 2 (if m.leap then 60 else m.second)

end Moment

/-- A moment as it is written: a date alone is its first moment. -/
structure Timestamp where
  moment : Moment
  dateOnly : Bool
  deriving Repr, DecidableEq

namespace Timestamp

def read? (cs : List Char) : Option Timestamp :=
  match Date.read? cs with
  | some (date, []) => some ⟨{ date }, true⟩
  | _ => (Moment.read? cs).map (⟨·, false⟩)

def render (t : Timestamp) : String := if t.dateOnly then t.moment.date.render else t.moment.render

end Timestamp

end SemanticLayer
