import SemanticLayer.Number.Fixed
import SemanticLayer.Number.Shortest
import SemanticLayer.Store.Affinity

/-! # Values and cells

Values are what sources and queries give. A cell is what a local table holds of a value: truth values
are numbers, exact decimals are text, and what is no number is nothing. The affinity of a column decides
how a cell is kept.
-/

namespace SemanticLayer

open Number (Double Fixed Decimal)

inductive Value where
  | null
  | bool (b : Bool)
  | int (i : Int)
  | float (x : Double)
  | decimal (d : Fixed)
  | text (s : String)
  deriving Repr, DecidableEq, BEq

namespace Value

def display : Value → String
  | .null => "NULL"
  | .bool b => if b then "true" else "false"
  | .int i => toString i
  | .float x => x.display
  | .decimal d => d.render
  | .text s => s

/-- Roughly the bytes a value takes. -/
def size : Value → Nat
  | .null | .bool _ => 1
  | .int _ | .float _ => 8
  | .decimal _ => 16
  | .text s => s.utf8ByteSize

end Value

inductive Cell where
  | null
  | int (i : Int)
  | real (x : Double)
  | text (s : String)
  deriving Repr, DecidableEq, BEq, Inhabited

def Value.toCell : Value → Cell
  | .null => .null
  | .bool b => .int (if b then 1 else 0)
  | .int i => .int i
  | .float .nan => .null
  | .float x => .real x
  | .decimal d => .text d.render
  | .text s => .text s

def Cell.toValue : Cell → Value
  | .null => .null
  | .int i => .int i
  | .real x => .float x
  | .text s => .text s

namespace Cell

def isBlank (c : Char) : Bool :=
  c == ' ' || c == '\t' || c == '\n' || c == '\x0b' || c == '\x0c' || c == '\r'

def trimBlanks (cs : List Char) : List Char :=
  ((cs.dropWhile isBlank).reverse.dropWhile isBlank).reverse

def fits (i : Int) : Bool := -(Int.pow 2 63) ≤ i && i < Int.pow 2 63

def numberOf? (s : String) : Option Cell :=
  let cs := trimBlanks s.toList
  let (negative, digits) := Number.takeSign cs
  if !digits.isEmpty && digits.all Char.isDigit then
    let n : Int := Number.ofDigits digits
    let i := if negative then -n else n
    some (if fits i then .int i else .real (.ofInt i))
  else
    match Decimal.scan? negative digits with
    | some (d, []) => some (.real d.toDouble)
    | _ => none

/-- A real without a fraction as an integer. The least and the greatest integer are left out. -/
def wholeNumber (x : Double) : Cell :=
  match x.toInt? with
  | some i => if -(Int.pow 2 63) < i && i < Int.pow 2 63 - 1 then .int i else .real x
  | none => .real x

def preferInt : Cell → Cell
  | .real x => wholeNumber x
  | .text s =>
    match numberOf? s with
    | some (.real x) => wholeNumber x
    | some c => c
    | none => .text s
  | c => c

def asText : Cell → Cell
  | .int i => .text (toString i)
  | .real x => .text x.general
  | c => c

def asReal : Cell → Cell
  | .int i => .real (.ofInt i)
  | c => c

end Cell

def Affinity.keep : Affinity → Cell → Cell
  | .integer, c | .numeric, c => c.preferInt
  | .real, c => c.preferInt.asReal
  | .text, c => c.asText
  | .blob, c | .untyped, c => c

/-- The affinity of a column of a declared type. -/
def Affinity.ofDeclared (declared : String) : Affinity :=
  let upper := Text.upperAscii declared
  let has (word : String) : Bool := Text.occursIn word upper
  if declared.isEmpty then .untyped
  else if has "INT" then .integer
  else if has "CHAR" || has "CLOB" || has "TEXT" then .text
  else if has "BLOB" then .blob
  else if has "REAL" || has "FLOA" || has "DOUB" then .real
  else .numeric

end SemanticLayer
