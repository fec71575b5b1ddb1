import SemanticLayer.Sql.Grammar.Call
import SemanticLayer.Sql.Grammar.Precedence

/-! # Reading operands

What an expression starts with: a literal, a name, a call, one of the constructs with a grammar of
their own, or anything in parentheses.
-/

namespace SemanticLayer.Sql.Grammar

def subquery (g : Grammar) : Parser Written := do
  let q ← parens g.query
  return [.text "(", .part (.query q), .text ")"]

def looksAtQuery : Parser Bool := do
  let ts ← get
  return startsWith ["SELECT"] ts || startsWith ["WITH"] ts

/-- A CASE of its parts. The conditions are walked before the results. -/
def caseOf (operand : Option (Expr Query)) (branches : List (Expr Query × Expr Query))
    (otherwise : Option (Expr Query)) : Expr Query :=
  let start := operand.toList.length
  let count := branches.length
  let arms : Shape := (List.range count).flatMap fun i =>
    [.text " WHEN ", .hole (start + i), .text " THEN ", .hole (start + count + i)]
  .form
    ([.text "CASE"] ++ (operand.toList.flatMap fun _ => [.text " ", .hole 0]) ++ arms ++
      (otherwise.toList.flatMap fun _ => [.text " ELSE ", .hole (start + 2 * count)]) ++
      [.text " END"])
    (operand.toList ++ branches.map Prod.fst ++ branches.map Prod.snd ++ otherwise.toList)

def caseBranch (g : Grammar) : Parser (Expr Query × Expr Query) := do
  let condition ← g.expr 0
  need (keyword "THEN")
  let result ← g.expr 0
  return (condition, result)

def caseExpr (g : Grammar) : Parser (Expr Query) := do
  let operand ←
    if ← looksAt ["WHEN"] then pure none else do pure (some (← g.expr 0))
  need (keyword "WHEN")
  let first ← caseBranch g
  let rest ← many do
    if ← keyword "WHEN" then return some (← caseBranch g) else return none
  let otherwise ← after "ELSE" (g.expr 0)
  need (keyword "END")
  return caseOf operand (first :: rest) otherwise

def castExpr (d : Dialect) (g : Grammar) (word : String) : Parser (Expr Query) := parens do
  let e ← g.expr 0
  need (keyword "AS")
  let (_, type) ← dataType d
  let format ← after "FORMAT" (do
    let format ← literal d
    let zone ← if ← keywords ["AT", "TIME", "ZONE"] then do
        pure (" AT TIME ZONE " ++ (← literal d).render)
      else pure ""
    pure (" FORMAT " ++ format.render ++ zone))
  return Written.expr [.text (word ++ "("), .part e, .text (" AS " ++ type ++ format.getD "" ++ ")")]

def convertExpr (d : Dialect) (g : Grammar) : Parser (Expr Query) := parens do
  let e ← g.expr 0
  if ← keyword "USING" then
    let charset ← path
    return Written.expr [.text "CONVERT(", .part e, .text (" USING " ++ Path.render charset ++ ")")]
  need (symbol ",")
  let (_, type) ← dataType d
  let charset ← if ← keywords ["CHARACTER", "SET"] then do
      pure (" CHARACTER SET " ++ Path.render (← path))
    else pure ""
  return Written.expr [.text "CONVERT(", .part e, .text (", " ++ type ++ charset ++ ")")]

def extractExpr (d : Dialect) (g : Grammar) : Parser (Expr Query) := parens do
  let field ← dateField d
  let between ←
    if ← keyword "FROM" then pure " FROM "
    else if ← guarded (d == .generic) (symbol ",") then pure ", "
    else failure
  let e ← g.expr 0
  return Written.expr [.text ("EXTRACT(" ++ field ++ between), .part e, .text ")"]

def roundExpr (d : Dialect) (g : Grammar) (word : String) : Parser (Expr Query) := parens do
  let e ← g.expr 0
  let suffix ←
    if ← keyword "TO" then do pure (" TO " ++ (← dateField d))
    else if ← symbol "," then do
      match ← literal d with
      | .number digits long => pure (", " ++ (Literal.number digits long).render)
      | _ => failure
    else pure ""
  return Written.expr [.text (word ++ "("), .part e, .text (suffix ++ ")")]

def positionExpr (d : Dialect) (g : Grammar) : Parser (Expr Query) := parens do
  let e ← g.expr (Level.between.strength d)
  need (keyword "IN")
  let whole ← g.expr 0
  return Written.expr [.text "POSITION(", .part e, .text " IN ", .part whole, .text ")"]

def substringExpr (g : Grammar) : Parser (Expr Query) := parens do
  let e ← g.expr 0
  let comma ← symbol ","
  let start ←
    if ← either (return comma) (keyword "FROM") then do pure (some (← g.expr 0)) else pure none
  let length ←
    if ← either (keyword "FOR") (symbol ",") then do pure (some (← g.expr 0)) else pure none
  let part (word : String) (e : Option (Expr Query)) : Written := match e with
    | none => []
    | some e => [.text (if comma then ", " else word), .part e]
  return Written.expr ([.text "SUBSTRING(", .part e] ++ part " FROM " start ++ part " FOR " length ++
    [.text ")"])

def overlayExpr (g : Grammar) : Parser (Expr Query) := parens do
  let e ← g.expr 0
  need (keyword "PLACING")
  let what ← g.expr 0
  need (keyword "FROM")
  let start ← g.expr 0
  let length ← after "FOR" (g.expr 0)
  return Written.expr ([.text "OVERLAY(", .part e, .text " PLACING ", .part what, .text " FROM ",
    .part start] ++ Written.orNone " FOR " (length.map fun e => [.part e]) ++ [.text ")"])

/-- `TRIM` behind its keyword. The trimmed expression is walked before the characters. -/
def trimExpr (d : Dialect) (g : Grammar) : Parser (Expr Query) := parens do
  let side ← oneOf ["BOTH", "LEADING", "TRAILING"]
  let before := match side with
    | some word => "TRIM(" ++ word ++ " "
    | none => "TRIM("
  let e ← g.expr 0
  if ← keyword "FROM" then
    let whole ← g.expr 0
    return .form [.text before, .hole 1, .text " FROM ", .hole 0, .text ")"] [whole, e]
  else if ← guarded (d == .generic) (symbol ",") then
    let characters ← list (g.expr 0)
    return Written.expr ([.text "TRIM(", .part e, .text ", "] ++ Written.ofList characters ++
      [.text ")"])
  else return Written.expr [.text before, .part e, .text ")"]

def arrayExpr (g : Grammar) (before : String) : Parser (Expr Query) := do
  let items ← listBefore "]" (g.expr 0)
  need (symbol "]")
  return Written.expr ([.text (before ++ "[")] ++ Written.ofList items ++ [.text "]"])

def existsExpr (g : Grammar) (before : String) : Parser (Expr Query) := do
  return Written.expr (.text before :: (← subquery g))

def notExpr (d : Dialect) (g : Grammar) : Parser (Expr Query) := do
  if ← keyword "EXISTS" then existsExpr g "NOT EXISTS "
  else
    let e ← g.expr (Level.not.strength d)
    return Written.expr [.text "NOT ", .part e]

def recordExpr (g : Grammar) : Parser (Expr Query) := do
  let fields ← listBefore "\x7d" (do
    let key ← identifier
    need (symbol ":")
    let e ← g.expr 0
    pure [Slot.text (key.render ++ ": "), .part e])
  need (symbol "\x7d")
  return Written.expr ([.text "\x7b"] ++ Written.commas fields ++ [.text "\x7d"])

def mapExpr (g : Grammar) : Parser (Expr Query) := do
  let entries ← listBefore "\x7d" (do
    let key ← g.expr 0
    need (symbol ":")
    let e ← g.expr 0
    pure [Slot.part key, .text ": ", .part e])
  need (symbol "\x7d")
  return Written.expr ([.text "MAP \x7b"] ++ Written.commas entries ++ [.text "\x7d"])

/-- `STRUCT` behind its keyword. Values of fields with declared types have no names of their own. -/
def structExpr (d : Dialect) (g : Grammar) : Parser (Expr Query) := do
  let fields ← structFields? d
  let values ← parens (list do
    let e ← g.expr 0
    match ← after "AS" identifier with
    | none => return [Slot.part e]
    | some name =>
      if fields.isEmpty then return [Slot.part e, .text (" AS " ++ name.render)] else failure)
  return Written.expr ([.text ("STRUCT" ++ fields ++ "(")] ++ Written.commas values ++ [.text ")"])

def matchExpr (d : Dialect) : Parser (Expr Query) := do
  let columns ← columnList
  need (keyword "AGAINST")
  let (value, mode) ← parens do
    let value ← literal d
    let expansion : Parser String := do
      if ← keywords ["WITH", "QUERY", "EXPANSION"] then return " WITH QUERY EXPANSION" else return ""
    if ← keywords ["IN", "NATURAL", "LANGUAGE", "MODE"] then
      return (value, " IN NATURAL LANGUAGE MODE" ++ (← expansion))
    else if ← keywords ["IN", "BOOLEAN", "MODE"] then return (value, " IN BOOLEAN MODE")
    else return (value, ← expansion)
  return Expr.text ("MATCH (" ++ commas (columns.map Ident.render) ++ ") AGAINST (" ++
    value.render ++ mode ++ ")")

/-- What stands in parentheses, behind the opening one. -/
def parenthesised (g : Grammar) : Parser (Expr Query) := do
  let e ←
    if ← looksAtQuery then do
      let q ← g.query
      pure (Written.expr [.text "(", .part (.query q), .text ")"])
    else do
      match ← list (g.expr 0) with
      | [e] => pure (.nested e)
      | es => pure (Written.expr ([Slot.text "("] ++ Written.ofList es ++ [.text ")"]))
  need (symbol ")")
  if ← symbol "." then
    match ← next with
    | .word value quote => return Written.expr [.part e, .text ("." ++ Ident.render ⟨value, quote⟩)]
    | _ => failure
  else return e

def typedLiteral (d : Dialect) (operand : Parser (Expr Query)) : Parser (Expr Query) := do
  match ← dataType d with
  | (true, "INTERVAL") => interval d operand
  | (true, type) => return Expr.text (type ++ " " ++ Text.quoted '\'' (← stringLiteral d))
  | (false, _) => failure

def nameOrCall (d : Dialect) (g : Grammar) (operand : Parser (Expr Query)) (first : Ident) : Parser (Expr Query) := do
  match ← peek with
  | some (.symbol "(") => call d g operand [first]
  | some (.symbol ".") =>
    let (name, wildcard) ← dottedName first
    if wildcard then
      if d == .postgres then return Expr.text (Path.render name ++ ".*") else failure
    else if ← looksAtSymbol "(" then call d g operand name
    else return .path name
  | some (.quoted kind content) =>
    if first.value.startsWith "_" && (kind == .plain || kind == .hex) then
      let _ ← next
      return Expr.text (first.value ++ " " ++ (Literal.quoted kind content).render)
    else return .ident first
  | _ => return .ident first

def clockCall (d : Dialect) (g : Grammar) (name : Ident) : Parser (Expr Query) := do
  if ← symbol "(" then
    let (args, _) ← arguments d g
    return callOf [name] args [] [] "" []
  else return .call [name] [] []

def wordOperand (d : Dialect) (g : Grammar) (operand : Parser (Expr Query)) (value : String) : Parser (Expr Query) := do
  let name : Ident := ⟨value, none⟩
  match Text.upperAscii value with
  | "TRUE" => return .literal (.word "true")
  | "FALSE" => return .literal (.word "false")
  | "NULL" => return .literal (.word "NULL")
  | "CURRENT_CATALOG" | "CURRENT_USER" | "SESSION_USER" | "USER" =>
    if d == .sqlite then nameOrCall d g operand name else return .call [name] [] []
  | "CURRENT_TIMESTAMP" | "CURRENT_TIME" | "CURRENT_DATE" | "LOCALTIME" | "LOCALTIMESTAMP" =>
    clockCall d g name
  | "CASE" => caseExpr g
  | "CONVERT" => convertExpr d g
  | "CAST" => castExpr d g "CAST"
  | "TRY_CAST" => castExpr d g "TRY_CAST"
  | "SAFE_CAST" => castExpr d g "SAFE_CAST"
  | "EXISTS" => existsExpr g "EXISTS "
  | "EXTRACT" => extractExpr d g
  | "CEIL" => roundExpr d g "CEIL"
  | "FLOOR" => roundExpr d g "FLOOR"
  | "POSITION" =>
    if ← looksAtSymbol "(" then
      match ← attempt (positionExpr d g) with
      | some e => return e
      | none => call d g operand [name]
    else nameOrCall d g operand name
  | "SUBSTRING" => substringExpr g
  | "OVERLAY" => overlayExpr g
  | "TRIM" => trimExpr d g
  | "INTERVAL" => interval d operand
  | "ARRAY" =>
    if ← symbol "[" then arrayExpr g "ARRAY"
    else if ← looksAtSymbol "(" then
      return callOf [name] (← subquery g) [] [] "" []
    else nameOrCall d g operand name
  | "NOT" => notExpr d g
  | "MATCH" => if d == .generic then matchExpr d else nameOrCall d g operand name
  | "STRUCT" => if d == .generic then structExpr d g else nameOrCall d g operand name
  | "MAP" =>
    if d == .generic && (← looksAtSymbol "\x7b") then
      let _ ← next
      mapExpr g
    else nameOrCall d g operand name
  | _ => nameOrCall d g operand name

def symbolOperand (d : Dialect) (g : Grammar) (s : String) : Parser (Expr Query) := do
  match s with
  | "(" => parenthesised g
  | "[" => arrayExpr g ""
  | "-" | "+" =>
    let e ← g.expr (Level.times.strength d)
    return Written.expr [.text s, .part e]
  | "\x7b" => if d == .generic then recordExpr g else failure
  | "!!" | "|/" | "||/" | "@" | "~" =>
    if d == .postgres then
      let e ← g.expr (Level.plus.strength d)
      return Written.expr [.text s, .part e]
    else if s == "@" then
      modify (.symbol s :: ·)
      return .literal (← literal d)
    else failure
  | ":" =>
    modify (.symbol s :: ·)
    return .literal (← literal d)
  | _ => failure

/-- An operand without what follows it. An interval's value is an operand again; these nest at most
    `n` deep. -/
def operandUpTo (d : Dialect) (g : Grammar) : Nat → Parser (Expr Query)
  | 0 => failure
  | n + 1 => do
    let operand := operandUpTo d g n
    match ← attempt (typedLiteral d operand) with
    | some e => return e
    | none =>
      let e ← match ← peek with
        | none => failure
        | some (.word value none) => do
          let _ ← next
          wordOperand d g operand value
        | some (.word value quote) => do
          let _ ← next
          nameOrCall d g operand ⟨value, quote⟩
        | some (.symbol s) => do
          let _ ← next
          symbolOperand d g s
        | some _ => do pure (.literal (← literal d))
      if ← keyword "COLLATE" then
        let collation ← path
        return Written.expr [.part e, .text (" COLLATE " ++ Path.render collation)]
      else return e

def operand (d : Dialect) (g : Grammar) : Parser (Expr Query) := do
  operandUpTo d g ((← get).length + 1)

end SemanticLayer.Sql.Grammar
