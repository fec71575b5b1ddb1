import SemanticLayer.Sql.Grammar.Operand

/-! # Reading expressions -/

namespace SemanticLayer.Sql.Grammar

def commonOperators : List String :=
  ["<=>", "==", "=", "<>", ">", ">=", "<", "<=", "+", "-", "*", "%", "||", "|", "^", "&", "/"] ++
    comparisonSymbols ++ otherSymbols

def operatorOf? (d : Dialect) (s : String) : Option Operator :=
  match s with
  | "=" | "==" => some .eq
  | "<>" => some .notEq
  | "<" => some .lt
  | "<=" => some .ltEq
  | ">" => some .gt
  | ">=" => some .gtEq
  | _ =>
    if commonOperators.contains s then some (.other s)
    else if ["<<", ">>", "^@"].contains s && d != .sqlite then some (.other s)
    else if s == "//" && d == .generic then some (.other s)
    else if ["#", "&&"].contains s && d == .postgres then some (.other s)
    else if isCustomOperator d s then some (.other s)
    else none

def operatorPart : Token → String
  | .word value quote => Ident.render ⟨value, quote⟩
  | .number digits long => (Literal.number digits long).render
  | .quoted kind content => (Literal.quoted kind content).render
  | .placeholder text => text
  | .symbol s => s

def binaryRest (g : Grammar) (left : Expr Query) (op : Operator) (strength : Nat) : Parser (Expr Query) := do
  match ← oneOf ["ANY", "ALL"] with
  | some word =>
    let right ← parens (g.expr strength)
    if op.isComparison then
      return Written.expr [.part left, .text (" " ++ op.render ++ " " ++ word ++ "("), .part right,
        .text ")"]
    else failure
  | none => return .binary op left (← g.expr strength)

def isRest (g : Grammar) (left : Expr Query) : Parser (Expr Query) := do
  let negated := if ← keyword "NOT" then " IS NOT " else " IS "
  match ← oneOf ["NULL", "TRUE", "FALSE", "UNKNOWN", "DISTINCT"] with
  | some "DISTINCT" =>
    need (keyword "FROM")
    let right ← g.expr 0
    return Written.expr [.part left, .text (negated ++ "DISTINCT FROM "), .part right]
  | some word => return Written.expr [.part left, .text (negated ++ word)]
  | none => failure

def inRest (d : Dialect) (g : Grammar) (left : Expr Query) (word : String) : Parser (Expr Query) := do
  if ← keyword "UNNEST" then
    let items ← parens (g.expr 0)
    return Written.expr [.part left, .text (word ++ "UNNEST("), .part items, .text ")"]
  parens do
    if ← looksAtQuery then
      let q ← g.query
      return Written.expr [.part left, .text (word ++ "("), .part (.query q), .text ")"]
    else
      let items ← if d == .sqlite then listBefore ")" (g.expr 0) else list (g.expr 0)
      return Written.expr ([.part left, .text (word ++ "(")] ++ Written.ofList items ++ [.text ")"])

def patternRest (d : Dialect) (g : Grammar) (left : Expr Query) (word : String) : Parser (Expr Query) := do
  let pattern ← g.expr (Level.like.strength d)
  let escape ← after "ESCAPE" (stringLiteral d)
  return Written.expr [.part left, .text word, .part pattern,
    .text (match escape with
      | some c => " ESCAPE '" ++ c ++ "'"
      | none => "")]

/-- A predicate that may be negated: IN, BETWEEN or a pattern. -/
def predicateRest (d : Dialect) (g : Grammar) (left : Expr Query) : Parser (Expr Query) := do
  let not := if ← keyword "NOT" then " NOT " else " "
  match ← oneOf ["REGEXP", "RLIKE", "IN", "BETWEEN", "LIKE", "ILIKE", "SIMILAR"] with
  | some "IN" => inRest d g left (not ++ "IN ")
  | some "BETWEEN" =>
    let low ← g.expr (Level.between.strength d)
    need (keyword "AND")
    let high ← g.expr (Level.between.strength d)
    return Written.expr [.part left, .text (not ++ "BETWEEN "), .part low, .text " AND ", .part high]
  | some "SIMILAR" =>
    need (keyword "TO")
    patternRest d g left (not ++ "SIMILAR TO ")
  | some "LIKE" => likeRest not "LIKE "
  | some "ILIKE" => likeRest not "ILIKE "
  | some word =>
    let pattern ← g.expr (Level.like.strength d)
    return Written.expr [.part left, .text (not ++ word ++ " "), .part pattern]
  | none => failure
where
  likeRest (not word : String) : Parser (Expr Query) := do
    let any := if ← keyword "ANY" then "ANY " else ""
    patternRest d g left (not ++ word ++ any)

def subscriptRest (g : Grammar) (left : Expr Query) : Parser (Expr Query) := do
  let lower ← if ← looksAtSymbol ":" then pure [] else do pure [Slot.part (← g.expr 0)]
  let bounds ← many do
    if ← symbol ":" then
      if ← looksAtSymbol "]" then return some [Slot.text ":"]
      else return some [Slot.text ":", .part (← g.expr 0)]
    else return none
  need (symbol "]")
  if bounds.length ≤ 2 then
    return Written.expr ([Slot.part left, .text "["] ++ lower ++ bounds.flatten ++ [.text "]"])
  else failure

def wordRest (d : Dialect) (g : Grammar) (left : Expr Query) (word : String) (strength : Nat) :
    Parser (Expr Query) := do
  match word with
  | "AND" =>
    let _ ← next
    binaryRest g left .and strength
  | "OR" | "XOR" =>
    let _ ← next
    binaryRest g left (.other word) strength
  | "OPERATOR" =>
    let _ ← next
    if d == .sqlite then failure
    let parts ← parens do
      let first ← next
      let rest ← many do
        if ← symbol "." then return some (← next) else return none
      pure (first :: rest)
    binaryRest g left (.other ("OPERATOR(" ++ ".".intercalate (parts.map operatorPart) ++ ")"))
      strength
  | "IS" =>
    let _ ← next
    isRest g left
  | "AT" =>
    need (keywords ["AT", "TIME", "ZONE"])
    let zone ← g.expr strength
    return Written.expr [.part left, .text " AT TIME ZONE ", .part zone]
  | _ => predicateRest d g left

/-- What the next tokens make of the expression before them. -/
def rest (d : Dialect) (g : Grammar) (left : Expr Query) (strength : Nat) : Parser (Expr Query) := do
  match ← peek with
  | some (.symbol "::") =>
    let _ ← next
    let (_, type) ← dataType d
    return Written.expr [.part left, .text ("::" ++ type)]
  | some (.symbol "!") =>
    let _ ← next
    return Written.expr [.part left, .text "!"]
  | some (.symbol "[") =>
    let _ ← next
    subscriptRest g left
  | some (.symbol s) =>
    let _ ← next
    match operatorOf? d s with
    | some op => binaryRest g left op strength
    | none => failure
  | some t =>
    match t.bareWord? with
    | some word => wordRest d g left word strength
    | none => failure
  | none => failure

/-- An expression whose operators bind tighter than a bound, one level above the nested ones. -/
def exprAbove (d : Dialect) (g : Grammar) (bound : Nat) : Parser (Expr Query) := do
  let first ← operand d g
  extend (fun left => do
    let strength := nextStrength d (← get)
    if bound ≥ strength then return none else return some (← rest d g left strength)) first

end SemanticLayer.Sql.Grammar
