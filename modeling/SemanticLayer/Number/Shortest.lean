import SemanticLayer.Number.Double

/-! # Doubles as decimal text

Two ways to write a double: with the fewest digits that read back as it, and with fifteen digits.
-/

namespace SemanticLayer.Number

/-- Digits `d₁d₂…` and the place of the point: the value is `0.d₁d₂… · 10^point`. -/
structure Digits where
  digits : List Char
  point : Int

def decimalDigits (n : Nat) : List Char := Nat.toDigits 10 n

def dropZeros (ds : List Char) : List Char := (ds.reverse.dropWhile (· = '0')).reverse

/-- The least `k` with `num / den < 10^k`, for a positive quotient. -/
def decimalPoint (num den : Nat) : Int :=
  let guess : Int := ((decimalDigits num).length : Int) - (decimalDigits den).length
  -- `num / den` lies between `10^(guess - 1)` and `10^(guess + 1)`.
  let below :=
    if 0 ≤ guess then num < den * Nat.pow 10 guess.toNat else num * Nat.pow 10 (-guess).toNat < den
  if below then guess else guess + 1

/-- A quotient in units of `10^k`, as a quotient. -/
def inUnits (num den : Nat) (k : Int) : Nat × Nat :=
  if 0 ≤ k then (num, den * Nat.pow 10 k.toNat) else (num * Nat.pow 10 (-k).toNat, den)

/-- The decimals that read back as a double: the ends of their interval in quarters of its unit,
    and whether the ends belong to it. -/
structure Neighbourhood where
  low : Nat
  high : Nat
  closed : Bool

/-- The neighbourhood of `m · 2^q`. Below a power of two the numbers lie twice as close. -/
def neighbourhood (m : Nat) (q : Int) : Neighbourhood where
  low := if m = Nat.pow 2 52 && Double.minExponent < q then 4 * m - 1 else 4 * m - 2
  high := 4 * m + 2
  closed := m % 2 = 0

/-- The nearest point with `n` digits that reads back as `m · 2^q`, if there is one; the value lies
    below `10^point`. -/
def withDigits? (m : Nat) (q : Int) (point : Int) (n : Nat) : Option Digits :=
  let (num, den) := Double.magnitude m q
  let k := point - n
  let (a, b) := inUnits num den k
  let floor := a / b
  let hood := neighbourhood m q
  -- In the unit `m · 2^q / (4 m)` a candidate `c` stands at `c · b · 4 m / a`.
  let inside (c : Nat) : Bool :=
    let at4 := c * b * 4 * m
    if hood.closed then hood.low * a ≤ at4 && at4 ≤ hood.high * a
    else hood.low * a < at4 && at4 < hood.high * a
  let make (c : Nat) : Digits :=
    let ds := decimalDigits c
    ⟨dropZeros ds, k + ds.length⟩
  let nearerUp := a - floor * b > (floor + 1) * b - a
  match inside floor, inside (floor + 1) with
  | true, true => some (make (if nearerUp then floor + 1 else floor))
  | true, false => some (make floor)
  | false, true => some (make (floor + 1))
  | false, false => none

/-- The fewest digits that read back as `m · 2^q`; seventeen are always enough. -/
def shortest (m : Nat) (q : Int) : Digits :=
  let (num, den) := Double.magnitude m q
  let point := decimalPoint num den
  match (List.range 17).findSome? fun i => withDigits? m q point (i + 1) with
  | some d => d
  | none =>
    let (a, b) := inUnits num den (point - 17)
    ⟨decimalDigits (roundEven a b), point⟩

/-- Digits around a point, without an exponent. A whole number has no point. -/
def Digits.positional (d : Digits) : String :=
  let count := d.digits.length
  if d.point ≤ 0 then
    String.ofList ('0' :: '.' :: (List.replicate (-d.point).toNat '0' ++ d.digits))
  else if count ≤ d.point.toNat then
    String.ofList (d.digits ++ List.replicate (d.point.toNat - count) '0')
  else
    String.ofList (d.digits.take d.point.toNat ++ '.' :: d.digits.drop d.point.toNat)

def signText (negative : Bool) : String := if negative then "-" else ""

/-- A double with the fewest digits that read back, never with an exponent. -/
def Double.display : Double → String
  | .finite negative m q =>
    if m = 0 then signText negative ++ "0" else signText negative ++ (shortest m q).positional
  | .infinite negative => signText negative ++ "inf"
  | .nan => "NaN"

/-- Fifteen digits of a positive quotient, a half going up. -/
def fifteenDigits (num den : Nat) : Digits :=
  let point := decimalPoint num den
  let (a, b) := inUnits num den (point - 15)
  let n := (2 * a + b) / (2 * b)
  let ds := decimalDigits n
  ⟨dropZeros ds, point + ((ds.length : Int) - 15)⟩

def exponentText (e : Int) : String :=
  let ds := toString e.natAbs
  "e" ++ (if e < 0 then "-" else "+") ++ (if ds.length < 2 then "0" ++ ds else ds)

/-- A double with at most fifteen digits and always a point; with an exponent if it is below
    `10^-4` or has more than fifteen digits before the point. Zero has no sign. -/
def Double.general : Double → String
  | .finite negative m q =>
    if m = 0 then "0.0"
    else
      let (num, den) := Double.magnitude m q
      let d := fifteenDigits num den
      let e := d.point - 1
      signText negative ++
        if e < -4 || 14 < e then
          let rest := d.digits.drop 1
          String.ofList (d.digits.take 1 ++ '.' :: (if rest.isEmpty then ['0'] else rest)) ++
            exponentText e
        else
          let text := d.positional
          if d.digits.length ≤ d.point.toNat then text ++ ".0" else text
  | .infinite negative => signText negative ++ "Inf"
  | .nan => ""

end SemanticLayer.Number
