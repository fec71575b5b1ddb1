import SemanticLayer.Number.Decimal
import SemanticLayer.Text.Space

/-! # Durations

Refresh times are written as a number and a unit, such as `30m`, `1.5h` or `500ms`, and are exact to
the nanosecond.
-/

namespace SemanticLayer

inductive DurationUnit where
  | day
  | hour
  | minute
  | second
  | milli
  | micro
  | nano
  deriving Repr, DecidableEq, BEq

namespace DurationUnit

def all : List DurationUnit := [.day, .hour, .minute, .second, .milli, .micro, .nano]

def suffix : DurationUnit → String
  | .day => "d"
  | .hour => "h"
  | .minute => "m"
  | .second => "s"
  | .milli => "ms"
  | .micro => "us"
  | .nano => "ns"

def nanos : DurationUnit → Nat
  | .day => 86400000000000
  | .hour => 3600000000000
  | .minute => 60000000000
  | .second => 1000000000
  | .milli => 1000000
  | .micro => 1000
  | .nano => 1

end DurationUnit

/-- A length of time in nanoseconds, less than `2^64` seconds. -/
structure Duration where
  nanos : Nat
  inRange : nanos < Nat.pow 2 64 * 1000000000
  deriving Repr, DecidableEq

inductive DurationError where
  | noUnit (text : String)
  | unknownUnit (text : String)
  | invalid (text : String)
  | tooLarge (text : String)
  deriving Repr, DecidableEq

namespace DurationError

def message : DurationError → String
  | .noUnit text => "duration '" ++ text ++ "' has no unit"
  | .unknownUnit text => "unknown duration unit in '" ++ text ++ "'"
  | .invalid text => "invalid duration '" ++ text ++ "'"
  | .tooLarge text => "duration '" ++ text ++ "' is too large"

end DurationError

namespace Duration

def zero : Duration := ⟨0, by decide⟩

def ofNanos? (n : Nat) : Option Duration :=
  if h : n < Nat.pow 2 64 * 1000000000 then some ⟨n, h⟩ else none

/-- The nanoseconds of a number of units: an integer is taken exactly, anything else as a double. -/
def nanosOf? (number : List Char) (unit : DurationUnit) : Option Nat :=
  match Number.readUnsigned? (Nat.pow 2 64) number with
  | some n => some (n * unit.nanos)
  | none =>
    match Number.Double.read? (String.ofList number) with
    | some x =>
      if x.isFinite && !x.isNegative then
        some ((x.mul (.ofNat unit.nanos)).roundTo (Nat.pow 2 128 - 1))
      else none
    | none => none

/-- Reads a number and a unit; the unit starts at the first letter. -/
def parse (text : String) : Except DurationError Duration :=
  let value := Text.trimChars text.toList
  let shown := String.ofList value
  let (number, unit) := value.span fun c => !c.isAlpha
  if unit.isEmpty then .error (.noUnit shown)
  else
    match DurationUnit.all.find? fun u => u.suffix.toList == Text.trimChars unit with
    | none => .error (.unknownUnit shown)
    | some unit =>
      match nanosOf? (Text.trimChars number) unit with
      | none => .error (.invalid shown)
      | some nanos =>
        match ofNanos? nanos with
        | none => .error (.tooLarge shown)
        | some d => .ok d

def largestUnit (d : Duration) : DurationUnit :=
  (DurationUnit.all.find? fun u => d.nanos % u.nanos == 0).getD .nano

def render (d : Duration) : String :=
  if d.nanos = 0 then "0s"
  else toString (d.nanos / d.largestUnit.nanos) ++ d.largestUnit.suffix

end Duration

end SemanticLayer
