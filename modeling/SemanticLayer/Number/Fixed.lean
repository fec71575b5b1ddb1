import SemanticLayer.Number.Decimal

/-! # Fixed point numbers

Exact decimals that keep the number of their places.
-/

namespace SemanticLayer.Number

/-- The number `± value · 10^-scale`, written with `scale` places. -/
structure Fixed where
  negative : Bool := false
  value : Nat
  scale : Nat
  deriving Repr, DecidableEq, BEq

namespace Fixed

/-- Reads digits with an optional sign and an optional point. -/
def read? (s : String) : Option Fixed :=
  let (negative, cs) := takeSign s.toList
  let (whole, rest) := cs.span Char.isDigit
  let places := match rest with
    | [] => some []
    | '.' :: places => if places.all Char.isDigit then some places else none
    | _ => none
  match places with
  | none => none
  | some places =>
    if whole.isEmpty && places.isEmpty then none
    else
      let value := ofDigits (whole ++ places)
      some { negative := negative && value != 0, value, scale := places.length }

def render (n : Fixed) : String :=
  let ds := Nat.toDigits 10 n.value
  let ds := List.replicate (n.scale + 1 - ds.length) '0' ++ ds
  let whole := ds.take (ds.length - n.scale)
  let places := ds.drop (ds.length - n.scale)
  (if n.negative then "-" else "") ++ String.ofList whole ++
    (if places.isEmpty then "" else "." ++ String.ofList places)

end Fixed

end SemanticLayer.Number
