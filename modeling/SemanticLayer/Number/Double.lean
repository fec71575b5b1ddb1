/-! # Double precision numbers

Numbers of the form `± m · 2^q` with at most 53 bits, kept exactly. Arithmetic is exact rational
arithmetic followed by one rounding to the nearest such number, a tie going to the even one.
-/

namespace SemanticLayer.Number

inductive Double where
  /-- `m · 2^q`, with a sign. -/
  | finite (negative : Bool) (m : Nat) (q : Int)
  | infinite (negative : Bool)
  | nan
  deriving Repr, DecidableEq, BEq, Inhabited

/-- The quotient of two numbers rounded to the nearest, a tie going to the even one. -/
def roundEven (num den : Nat) : Nat :=
  let whole := num / den
  let twice := 2 * (num % den)
  if twice < den then whole
  else if den < twice then whole + 1
  else if whole % 2 = 0 then whole else whole + 1

namespace Double

def minExponent : Int := -1074

/-- The greatest exponent of a number with 53 bits. -/
def maxExponent : Int := 971

def zero (negative : Bool) : Double := .finite negative 0 minExponent

/-- The exponent at which `num / den` has 53 bits before the point, or the least one. -/
def exponentOf (num den : Nat) : Int :=
  let guess : Int := (num.log2 : Int) - (den.log2 : Int) - 52
  -- `num / den` lies between `2^(guess + 51)` and `2^(guess + 53)`.
  let small :=
    if 0 ≤ guess then num < den * Nat.pow 2 (guess.toNat + 52)
    else num * Nat.pow 2 (-guess).toNat < den * Nat.pow 2 52
  max (if small then guess - 1 else guess) minExponent

def nearest (negative : Bool) (num den : Nat) : Double :=
  if num = 0 then zero negative
  else
    let q := exponentOf num den
    let m :=
      if 0 ≤ q then roundEven num (den * Nat.pow 2 q.toNat)
      else roundEven (num * Nat.pow 2 (-q).toNat) den
    let (m, q) := if m = Nat.pow 2 53 then (Nat.pow 2 52, q + 1) else (m, q)
    if maxExponent < q then .infinite negative else .finite negative m q

def ofInt (i : Int) : Double := nearest (i < 0) i.natAbs 1

def ofNat (n : Nat) : Double := nearest false n 1

def magnitude (m : Nat) (q : Int) : Nat × Nat :=
  if 0 ≤ q then (m * Nat.pow 2 q.toNat, 1) else (m, Nat.pow 2 (-q).toNat)

def mul : Double → Double → Double
  | .finite s m p, .finite t n q =>
    let (num, den) := magnitude (m * n) (p + q)
    nearest (s != t) num den
  | .nan, _ => .nan
  | _, .nan => .nan
  | .infinite s, .infinite t => .infinite (s != t)
  | .infinite s, .finite t n _ => if n = 0 then .nan else .infinite (s != t)
  | .finite s m _, .infinite t => if m = 0 then .nan else .infinite (s != t)

def toInt? : Double → Option Int
  | .finite negative m q =>
    let (num, den) := magnitude m q
    if num % den = 0 then
      let n : Int := (num / den : Nat)
      some (if negative then -n else n)
    else none
  | .infinite _ | .nan => none

/-- The number without its fraction, cut off at 0 and at `top`; 0 for what is no number. -/
def truncateTo (top : Nat) : Double → Nat
  | .finite negative m q =>
    let (num, den) := magnitude m q
    if negative then 0 else min (num / den) top
  | .infinite negative => if negative then 0 else top
  | .nan => 0

/-- The nearest integer, a half going away from zero, cut off at 0 and at `top`. -/
def roundTo (top : Nat) : Double → Nat
  | .finite negative m q =>
    let (num, den) := magnitude m q
    if negative then 0 else min ((2 * num + den) / (2 * den)) top
  | .infinite negative => if negative then 0 else top
  | .nan => 0

def isNegative : Double → Bool
  | .finite negative m _ => negative && m != 0
  | .infinite negative => negative
  | .nan => false

def isFinite : Double → Bool
  | .finite _ _ _ => true
  | .infinite _ | .nan => false

def compare? : Double → Double → Option Ordering
  | .nan, _ => none
  | _, .nan => none
  | .infinite s, .infinite t =>
    some (if s == t then .eq else if s then .lt else .gt)
  | .infinite s, .finite _ _ _ => some (if s then .lt else .gt)
  | .finite _ _ _, .infinite t => some (if t then .gt else .lt)
  | .finite s m p, .finite t n q =>
    let low := min p q
    let a : Int := (m * Nat.pow 2 (p - low).toNat : Nat)
    let b : Int := (n * Nat.pow 2 (q - low).toNat : Nat)
    some (compare (if s then -a else a) (if t then -b else b))

end Double

end SemanticLayer.Number
