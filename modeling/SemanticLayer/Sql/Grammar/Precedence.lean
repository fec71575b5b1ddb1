import SemanticLayer.Sql.Grammar.Basic

/-! # How tightly operators bind -/

namespace SemanticLayer.Sql.Grammar

inductive Level where
  | cast
  | timeZone
  | times
  | plus
  | xor
  | ampersand
  | caret
  | pipe
  | between
  | comparison
  | like
  | is
  | other
  | not
  | and
  | or

def Level.strength (d : Dialect) (level : Level) : Nat :=
  match d with
  | .postgres =>
    match level with
    | .cast => 140
    | .timeZone => 110
    | .caret => 100
    | .times => 90
    | .plus => 80
    | .xor => 75
    | .ampersand | .pipe | .other => 70
    | .between | .like => 60
    | .comparison => 50
    | .is => 40
    | .not => 30
    | .and => 20
    | .or => 10
  | .generic | .sqlite =>
    match level with
    | .cast => 50
    | .timeZone => 41
    | .times => 40
    | .plus => 30
    | .xor => 24
    | .ampersand => 23
    | .caret => 22
    | .pipe => 21
    | .between | .comparison => 20
    | .like => 19
    | .is => 17
    | .other => 16
    | .not => 15
    | .and => 10
    | .or => 5

def comparisonSymbols : List String :=
  ["=", "<", "<=", "<>", ">", ">=", "==", "~", "~*", "!~", "!~*", "~~", "~~*", "!~~", "!~~*", "<=>"]

def otherSymbols : List String :=
  ["->", "->>", "#>", "#>>", "@>", "<@", "#-", "@?", "@@", "?", "?&", "?|"]

def isCustomOperator (d : Dialect) (s : String) : Bool :=
  d == .postgres && s.length > 1 && s.all d.continuesOperator

/-- How tightly a symbol binds to the expression before it; 0 if it does not go on with it. -/
def symbolStrength (d : Dialect) (s : String) : Nat :=
  if comparisonSymbols.contains s then Level.comparison.strength d
  else if otherSymbols.contains s then Level.other.strength d
  else
    match s with
    | "[" => if d == .postgres then 130 else Level.cast.strength d
    | "||" => if d == .postgres then Level.other.strength d else Level.times.strength d
    | "!" | "&&" | "^@" => if d == .postgres then Level.other.strength d else Level.cast.strength d
    | "#" | "<<" | ">>" =>
      if d == .postgres then Level.other.strength d else Level.caret.strength d
    | "::" => Level.cast.strength d
    | "|" => Level.pipe.strength d
    | "^" => Level.caret.strength d
    | "&" => Level.ampersand.strength d
    | "+" | "-" => Level.plus.strength d
    | "*" | "/" | "//" | "%" => Level.times.strength d
    | _ => if isCustomOperator d s then Level.other.strength d else 0

def predicateStrength (d : Dialect) (word : String) : Nat :=
  match word with
  | "IN" | "BETWEEN" => Level.between.strength d
  | "LIKE" | "ILIKE" | "RLIKE" | "REGEXP" | "SIMILAR" => Level.like.strength d
  | _ => 0

/-- How tightly the next tokens bind to the expression before them. -/
def nextStrength (d : Dialect) : List Token → Nat
  | .symbol s :: _ => symbolStrength d s
  | t :: rest =>
    match t.bareWord? with
    | some "OR" => Level.or.strength d
    | some "AND" => Level.and.strength d
    | some "XOR" => Level.xor.strength d
    | some "AT" => if startsWith ["TIME", "ZONE"] rest then Level.timeZone.strength d else 0
    | some "NOT" =>
      match rest.head?.bind Token.bareWord? with
      | some word => predicateStrength d word
      | none => 0
    | some "IS" => Level.is.strength d
    | some "OPERATOR" => Level.between.strength d
    | some "DIV" => Level.times.strength d
    | some "COLLATE" => if d == .postgres then 120 else 0
    | some word => predicateStrength d word
    | none => 0
  | [] => 0

end SemanticLayer.Sql.Grammar
