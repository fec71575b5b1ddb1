import SemanticLayer.Text.Case

/-! # Units of time

The periods a time can be truncated to.
-/

namespace SemanticLayer

inductive TimeUnit where
  | year
  | quarter
  | month
  | week
  | day
  | hour
  | minute
  | second
  deriving Repr, DecidableEq, BEq, Inhabited

namespace TimeUnit

def all : List TimeUnit := [.year, .quarter, .month, .week, .day, .hour, .minute, .second]

def truncName : TimeUnit → String
  | .year => "year"
  | .quarter => "quarter"
  | .month => "month"
  | .week => "week"
  | .day => "day"
  | .hour => "hour"
  | .minute => "minute"
  | .second => "second"

def name : TimeUnit → String
  | .year => "YEAR"
  | .quarter => "QUARTER"
  | .month => "MONTH"
  | .week => "WEEK"
  | .day => "DAY"
  | .hour => "HOUR"
  | .minute => "MINUTE"
  | .second => "SECOND"

def parse? (s : String) : Option TimeUnit :=
  all.find? fun unit => unit.truncName == Text.lower s

def unknownMessage (s : String) : String := "Unknown time unit: " ++ s

end TimeUnit

end SemanticLayer
