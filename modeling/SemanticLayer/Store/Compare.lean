import SemanticLayer.Store.Value

/-! # Comparing cells

Nothing comes before numbers and numbers before text. A comparison with nothing is undecided. When a column
is compared, its affinity is applied to the other side.
-/

namespace SemanticLayer

open Number (Double)

namespace Cell

/-- A number as an exact multiple of a power of two. -/
def exact : Cell → Double
  | .int i => .finite (i < 0) i.natAbs 0
  | .real x => x
  | .null | .text _ => .nan

def rank : Cell → Nat
  | .null => 0
  | .int _ | .real _ => 1
  | .text _ => 2

def order (a b : Cell) : Ordering :=
  match a, b with
  | .text s, .text t => compare s t
  | a, b =>
    if a.rank = 1 && b.rank = 1 then (Double.compare? a.exact b.exact).getD .eq
    else compare a.rank b.rank

def asNumber : Cell → Cell
  | .text s => (numberOf? s).getD (.text s)
  | c => c

/-- The truth of a condition; nothing if it is undecided. -/
def truth? : Cell → Option Bool
  | .null => none
  | .int i => some (i != 0)
  | .real x => some (x.compare? (.zero false) != some .eq)
  | .text s =>
    let (negative, cs) := Number.takeSign (s.toList.dropWhile isBlank)
    match Number.Decimal.scan? negative cs with
    | some (d, _) => some (d.value != 0)
    | none => some false

def ofTruth? : Option Bool → Cell
  | none => .null
  | some b => .int (if b then 1 else 0)

end Cell

namespace Affinity

/-- Whether a column of this affinity keeps numbers as numbers. -/
def isNumeric : Affinity → Bool
  | .integer | .real | .numeric => true
  | .text | .blob | .untyped => false

/-- Both sides of a comparison, given their affinities. -/
def agree (left right : Affinity) (a b : Cell) : Cell × Cell :=
  if left.isNumeric || right.isNumeric then (a.asNumber, b.asNumber)
  else if (left == .text && right == .untyped) || (left == .untyped && right == .text) then
    (a.asText, b.asText)
  else (a, b)

end Affinity

inductive Comparison where
  | eq
  | notEq
  | lt
  | ltEq
  | gt
  | gtEq
  deriving Repr, DecidableEq

def Comparison.holds : Comparison → Ordering → Bool
  | .eq, o => o == .eq
  | .notEq, o => o != .eq
  | .lt, o => o == .lt
  | .ltEq, o => o != .gt
  | .gt, o => o == .gt
  | .gtEq, o => o != .lt

def Comparison.decide (c : Comparison) (a b : Cell) : Option Bool :=
  match a, b with
  | .null, _ => none
  | _, .null => none
  | a, b => some (c.holds (a.order b))

end SemanticLayer
