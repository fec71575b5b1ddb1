/-! # Sets of characters

A property of the Unicode standard is kept as the list of its code point ranges, both ends
included, or as run lengths if the ranges are many.
-/

namespace SemanticLayer.Text

/-- A set of code points as ranges, both ends included. -/
abbrev Ranges := List (Nat × Nat)

def Ranges.has (ranges : Ranges) (c : Char) : Bool :=
  ranges.any fun r => r.1 ≤ c.toNat && c.toNat ≤ r.2

/-- A set of code points as the lengths of runs, alternately out of the set and in it. -/
abbrev Runs := List Nat

def Runs.has (runs : Runs) (c : Char) : Bool := go false runs c.toNat
where
  /-- The search among the runs left, for a code point counted from their start. -/
  go (inside : Bool) : Runs → Nat → Bool
    | [], _ => false
    | run :: rest, code => if code < run then inside else go (!inside) rest (code - run)

end SemanticLayer.Text
