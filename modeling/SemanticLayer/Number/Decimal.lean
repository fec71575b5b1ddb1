import SemanticLayer.Number.Double

/-! # Decimal text

Reading unsigned integers and doubles.
-/

namespace SemanticLayer.Number

def ofDigits (ds : List Char) : Nat := ds.foldl (fun n c => n * 10 + (c.toNat - 48)) 0

/-- An unsigned integer below a bound: digits, with a plus sign allowed. -/
def readUnsigned? (bound : Nat) (cs : List Char) : Option Nat :=
  let ds := match cs with
    | '+' :: rest => rest
    | _ => cs
  if ds.isEmpty || !ds.all Char.isDigit then none
  else if ofDigits ds < bound then some (ofDigits ds) else none

def readWord? (s : String) : Option Nat := readUnsigned? (Nat.pow 2 64) s.toList

/-- A number `± value · 10^exponent`. -/
structure Decimal where
  negative : Bool
  value : Nat
  exponent : Int
  deriving Repr, DecidableEq

def takeSign : List Char → Bool × List Char
  | '-' :: rest => (true, rest)
  | '+' :: rest => (false, rest)
  | cs => (false, cs)

namespace Decimal

/-- Digits, an optional point among or around them, and an optional exponent; and what follows. The
    sign is given. -/
def scan? (negative : Bool) (cs : List Char) : Option (Decimal × List Char) :=
  let (whole, rest) := cs.span Char.isDigit
  let (places, rest) := match rest with
    | '.' :: after => after.span Char.isDigit
    | _ => ([], rest)
  if whole.isEmpty && places.isEmpty then none
  else
    let value := ofDigits (whole ++ places)
    let shift : Int := -(places.length : Int)
    let plain := some (⟨negative, value, shift⟩, rest)
    match rest with
    | e :: after =>
      if e = 'e' || e = 'E' then
        let (down, after) := takeSign after
        let (ds, after) := after.span Char.isDigit
        if ds.isEmpty then plain
        else
          let n : Int := ofDigits ds
          some (⟨negative, value, shift + if down then -n else n⟩, after)
      else plain
    | [] => plain

/-- The double nearest to a decimal. Beyond 400 digits on either side of the point the answer is
    known without computing. -/
def toDouble (d : Decimal) : Double :=
  if d.value = 0 then .zero d.negative
  else
    let size : Int := (Nat.toDigits 10 d.value).length + d.exponent
    if 400 < size then .infinite d.negative
    else if size < -400 then .zero d.negative
    else if 0 ≤ d.exponent then .nearest d.negative (d.value * Nat.pow 10 d.exponent.toNat) 1
    else .nearest d.negative d.value (Nat.pow 10 (-d.exponent).toNat)

end Decimal

/-- A double written as a decimal or as a word for infinity or for no number. -/
def Double.read? (s : String) : Option Double :=
  let (negative, cs) := takeSign s.toList
  match String.ofList (cs.map Char.toLower) with
  | "inf" | "infinity" => some (.infinite negative)
  | "nan" => some .nan
  | _ =>
    match Decimal.scan? negative cs with
    | some (d, []) => some d.toDouble
    | _ => none

end SemanticLayer.Number
