/-! # JSON values

An object keeps its members in the order they are written, repeated ones included.
-/

namespace SemanticLayer

inductive Json where
  | null
  | bool (b : Bool)
  | number (text : String)
  | string (s : String)
  /-- A string with half of a surrogate pair, which no text can hold. -/
  | brokenString
  | array (items : List Json)
  | object (members : List (String × Json))
  deriving Inhabited

namespace Json

def int (i : Int) : Json := .number (toString i)

def ofOption : Option String → Json
  | none => .null
  | some s => .string s

/-- The last member of a name; null if there is none. -/
def get (j : Json) (name : String) : Json :=
  match j with
  | .object members => ((members.reverse.find? fun m => m.1 == name).map Prod.snd).getD .null
  | _ => .null

def asString? : Json → Option String
  | .string s => some s
  | _ => none

def asBool? : Json → Option Bool
  | .bool b => some b
  | _ => none

def asArray? : Json → Option (List Json)
  | .array items => some items
  | _ => none

/-- The integer a number writes without a point or an exponent. -/
def asInt? : Json → Option Int
  | .number text =>
    match text.toList with
    | '-' :: ds => if !ds.isEmpty && ds.all Char.isDigit then some (-(value ds : Int)) else none
    | ds => if !ds.isEmpty && ds.all Char.isDigit then some (value ds : Int) else none
  | _ => none
where
  /-- The number that digits write. -/
  value (ds : List Char) : Nat := ds.foldl (fun n c => n * 10 + (c.toNat - 48)) 0

end Json

end SemanticLayer
