import SemanticLayer.Sql.Keyword
import SemanticLayer.Sql.Render
import SemanticLayer.Sql.Token

/-! # Parsers over tokens

A parser takes tokens off the front or fails. It can only fail in one way, because every syntax
error reads the same. Constructs that are only carried along are written down as text and parts in
the order they are read; `Written.expr` makes an expression of them.
-/

namespace SemanticLayer.Sql

abbrev Parser := StateT (List Token) Option

/-- Whether a token is an unquoted word, in any case of its letters. -/
def Token.isWord (t : Token) (word : String) : Bool :=
  match t with
  | .word value none => Text.upperAscii value == word
  | _ => false

/-- The upper-case spelling of an unquoted word. -/
def Token.bareWord? : Token → Option String
  | .word value none => some (Text.upperAscii value)
  | _ => none

namespace Grammar

def peek : Parser (Option Token) := do return (← get).head?

def next : Parser Token := fun
  | [] => none
  | t :: rest => some (t, rest)

def startsWith : List String → List Token → Bool
  | [], _ => true
  | _ :: _, [] => false
  | word :: words, t :: rest => t.isWord word && startsWith words rest

def looksAt (words : List String) : Parser Bool := do return startsWith words (← get)

def keywords (words : List String) : Parser Bool := do
  let ts ← get
  if startsWith words ts then
    set (ts.drop words.length)
    return true
  else return false

def keyword (word : String) : Parser Bool := keywords [word]

def looksAtSymbol (s : String) : Parser Bool := do return (← get).head? == some (.symbol s)

def symbol (s : String) : Parser Bool := do
  match ← get with
  | .symbol t :: rest =>
    if t == s then
      set rest
      return true
    else return false
  | _ => return false

def need (p : Parser Bool) : Parser Unit := do
  if ← p then return () else failure

def either (p q : Parser Bool) : Parser Bool := do
  if ← p then return true else q

def guarded (condition : Bool) (p : Parser Bool) : Parser Bool :=
  if condition then p else return false

def oneOf : List String → Parser (Option String)
  | [] => return none
  | word :: words => do
    if ← keyword word then return some word else oneOf words

def needOneOf (words : List String) : Parser String := do
  match ← oneOf words with
  | some word => return word
  | none => failure

/-- What a parser reads, if it can; otherwise takes nothing. -/
def attempt {α : Type} (p : Parser α) : Parser (Option α) := fun ts =>
  match p ts with
  | some (a, rest) => some (some a, rest)
  | none => some (none, ts)

def after {α : Type} (word : String) (p : Parser α) : Parser (Option α) := do
  if ← keyword word then return some (← p) else return none

def parens {α : Type} (p : Parser α) : Parser α := do
  need (symbol "(")
  let a ← p
  need (symbol ")")
  return a

def listUpTo {α : Type} (p : Parser α) : Nat → Parser (List α)
  | 0 => failure
  | n + 1 => do
    let a ← p
    if ← symbol "," then return a :: (← listUpTo p n) else return [a]

def list {α : Type} (p : Parser α) : Parser (List α) := do listUpTo p ((← get).length + 1)

def listBefore {α : Type} (close : String) (p : Parser α) : Parser (List α) := do
  if ← looksAtSymbol close then return [] else list p

/-- Goes on from a value as long as a step finds more, at most `n` times. -/
def extendUpTo {α : Type} (step : α → Parser (Option α)) : Nat → α → Parser α
  | 0, a => return a
  | n + 1, a => do
    match ← step a with
    | none => return a
    | some a => extendUpTo step n a

/-- Goes on from a value as long as a step finds more; each step takes a token. -/
def extend {α : Type} (step : α → Parser (Option α)) (a : α) : Parser α := do
  extendUpTo step ((← get).length) a

/-- What a step finds, as often as it finds something; each step takes a token. -/
def many {α : Type} (step : Parser (Option α)) : Parser (List α) := do
  let found ← extend (fun found => do return (← step).map (· :: found)) []
  return found.reverse

end Grammar

/-- A piece of a construct as it is read. -/
inductive Slot where
  | text (s : String)
  | part (e : Expr Query)

/-- A construct as it is read, its parts walked in the order they are written. -/
abbrev Written := List Slot

namespace Written

/-- The shape of a construct, its holes numbered from `n`. -/
def shapeFrom (n : Nat) : Written → Shape
  | [] => []
  | .text s :: rest => .text s :: shapeFrom n rest
  | .part _ :: rest => .hole n :: shapeFrom (n + 1) rest

def parts : Written → List (Expr Query)
  | [] => []
  | .text _ :: rest => parts rest
  | .part e :: rest => e :: parts rest

def expr (w : Written) : Expr Query := .form (shapeFrom 0 w) (parts w)

def commas (ws : List Written) : Written := [Slot.text ", "].intercalate ws

def ofList (es : List (Expr Query)) : Written := commas (es.map fun e => [.part e])

def orNone (before : String) : Option Written → Written
  | none => []
  | some w => .text before :: w

def ofOrder (item : OrderItem Query) : Written :=
  [.part item.expr, .text ((match item.ascending with
      | none => ""
      | some true => " ASC"
      | some false => " DESC") ++
    (match item.nullsFirst with
      | none => ""
      | some true => " NULLS FIRST"
      | some false => " NULLS LAST"))]

end Written

end SemanticLayer.Sql
