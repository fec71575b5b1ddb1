import SemanticLayer.Calendar.Text
import SemanticLayer.TimeUnit

/-! # Truncating to a unit of time

A moment is cut down to the start of the period it lies in.
-/

namespace SemanticLayer

/-- The first day of the period of a date; for periods of a day or less the date itself. -/
def Date.truncate (unit : TimeUnit) (d : Date) : Date :=
  match unit with
  | .year => { d with month := 1, day := 1 }
  | .quarter => { d with month := (d.month - 1) / 3 * 3 + 1, day := 1 }
  | .month => { d with day := 1 }
  | .week => d.back d.weekday
  | .day | .hour | .minute | .second => d

def Moment.truncate (unit : TimeUnit) (m : Moment) : Moment :=
  let date := m.date.truncate unit
  match unit with
  | .year | .quarter | .month | .week | .day => { date }
  | .hour => { date, hour := m.hour }
  | .minute => { date, hour := m.hour, minute := m.minute }
  | .second => { date, hour := m.hour, minute := m.minute, second := m.second }

inductive TruncateError where
  /-- Its period starts before the first day that is supported. -/
  | outOfRange
  deriving Repr, DecidableEq

/-- The text of the start of a period: a date if a date is given, else a moment. -/
def dateTrunc (unitName value : String) : Except TruncateError (Option String) :=
  match Timestamp.read? value.toList, TimeUnit.parse? unitName with
  | some t, some unit =>
    let start := t.moment.truncate unit
    if start.date.isValid then .ok (some (Timestamp.render { t with moment := start }))
    else .error .outOfRange
  | _, _ => .ok none

end SemanticLayer
