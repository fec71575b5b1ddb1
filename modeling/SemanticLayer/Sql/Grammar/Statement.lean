import SemanticLayer.Sql.Grammar.Query

/-! # Reading statements

Only queries are kept as trees. Of any other statement the text is kept.
-/

namespace SemanticLayer.Sql.Grammar

def delete (d : Dialect) (g : Grammar) : Parser String := do
  let tables ←
    if ← keyword "FROM" then pure "FROM "
    else if d == .generic then pure ""
    else do
      let tables ← list path
      need (keyword "FROM")
      pure (commas (tables.map Path.render) ++ " FROM ")
  let source ← list (fromItem d g)
  let others ← after "USING" (list (fromItem d g))
  let filter ← after "WHERE" (g.expr 0)
  let returning ← returning? d g
  let items (l : List (FromItem Query)) := commas (l.map (FromItem.renderWith Query.render))
  return "DELETE " ++ tables ++ items source ++ (match others with
    | some l => " USING " ++ items l
    | none => "") ++ clause Query.render "WHERE" filter ++ returning

def columnOption? (g : Grammar) : Parser (Option String) := do
  if ← keywords ["NOT", "NULL"] then return some " NOT NULL"
  else if ← keyword "NULL" then return some " NULL"
  else if ← keywords ["PRIMARY", "KEY"] then return some " PRIMARY KEY"
  else if ← keyword "UNIQUE" then return some " UNIQUE"
  else if ← keyword "DEFAULT" then return some (" DEFAULT " ++ (← g.expr 0).render)
  else if ← keyword "CHECK" then return some (" CHECK (" ++ (← parens (g.expr 0)).render ++ ")")
  else return none

def columnDefinition (d : Dialect) (g : Grammar) : Parser String := do
  let name ← identifier
  let typed ← match ← peek with
    | some (.symbol ",") | some (.symbol ")") => pure (d != .sqlite)
    | _ => pure true
  let type ← if typed then do pure (" " ++ (← dataType d).2) else pure ""
  let options ← many (columnOption? g)
  return name.render ++ type ++ String.join options

/-- The text of a token, as a statement that is only carried along writes it. -/
def tokenText : Token → String := operatorPart

def carried : Parser (List Token) :=
  many do
    match ← get with
    | [] | .symbol ";" :: _ => return none
    | t :: rest =>
      set rest
      return some t

/-- Whether no space stands between two symbols or words. `tight` parentheses follow directly. -/
def joins (tight : Bool) : Token → Token → Bool
  | _, .symbol "," | _, .symbol ")" | _, .symbol "." | .symbol ".", _ | .symbol "(", _ => true
  | _, .symbol "(" => tight
  | _, _ => false

/-- The text of tokens behind one that has been written. -/
def carriedText (tight : Bool) (previous : Token) : List Token → String
  | [] => ""
  | t :: rest =>
    (if joins tight previous t then "" else " ") ++ tokenText t ++ carriedText tight t rest

def createIndex (g : Grammar) (unique : String) : Parser String := do
  let concurrently := if ← keyword "CONCURRENTLY" then "CONCURRENTLY " else ""
  let exists? := if ← keywords ["IF", "NOT", "EXISTS"] then "IF NOT EXISTS " else ""
  let name ← if ← looksAt ["ON"] then pure "" else do pure (Path.render (← path) ++ " ")
  need (keyword "ON")
  let table ← path
  let method ← after "USING" identifier
  let method := match method with
    | some name => " USING " ++ name.render ++ " "
    | none => ""
  let columns ← parens (list (orderItem g))
  return "CREATE " ++ unique ++ "INDEX " ++ concurrently ++ exists? ++ name ++ "ON " ++ Path.render table ++
    method ++ "(" ++ ",".intercalate (columns.map (OrderItem.renderWith Query.render)) ++ ")"

def otherKinds : List String :=
  ["SCHEMA", "DATABASE", "SEQUENCE", "EXTENSION", "ROLE", "TYPE", "FUNCTION", "TRIGGER"]

def create (d : Dialect) (g : Grammar) : Parser String := do
  let orReplace := if ← keywords ["OR", "REPLACE"] then "OR REPLACE " else ""
  let temporary := if (← oneOf ["TEMPORARY", "TEMP"]).isSome then "TEMPORARY " else ""
  if ← keyword "INDEX" then return ← createIndex g ""
  if ← keywords ["UNIQUE", "INDEX"] then return ← createIndex g "UNIQUE "
  if let some kind ← oneOf otherKinds then
    return "CREATE " ++ orReplace ++ temporary ++ kind ++ carriedText true (.word kind none) (← carried)
  match ← needOneOf ["TABLE", "VIEW"] with
  | "TABLE" =>
    let exists? := if ← keywords ["IF", "NOT", "EXISTS"] then "IF NOT EXISTS " else ""
    let name ← path
    let columns ← if ← symbol "(" then do
        let columns ← listBefore ")" (columnDefinition d g)
        need (symbol ")")
        pure (" (" ++ commas columns ++ ")")
      else pure ""
    let source ← after "AS" g.query
    return "CREATE " ++ orReplace ++ temporary ++ "TABLE " ++ exists? ++ Path.render name ++ columns ++
      (match source with
        | some q => " AS " ++ q.render
        | none => "")
  | word =>
    let exists? := if ← keywords ["IF", "NOT", "EXISTS"] then "IF NOT EXISTS " else ""
    let name ← path
    let columns ← columnList?
    need (keyword "AS")
    let q ← g.query
    return "CREATE " ++ orReplace ++ temporary ++ word ++ " " ++ exists? ++ Alias.render ⟨⟨Path.render name, none⟩, columns⟩ ++
      " AS " ++ q.render

def drop : Parser String := do
  let temporary := if ← keyword "TEMPORARY" then "TEMPORARY " else ""
  let kind ←
    if ← keywords ["MATERIALIZED", "VIEW"] then pure "MATERIALIZED VIEW"
    else needOneOf ["TABLE", "VIEW", "INDEX", "ROLE", "SCHEMA", "SEQUENCE", "STAGE", "TYPE"]
  let exists? := if ← keywords ["IF", "EXISTS"] then " IF EXISTS" else ""
  let names ← list path
  let cascade ← keyword "CASCADE"
  let restrict ← keyword "RESTRICT"
  let purge ← keyword "PURGE"
  if cascade && restrict then failure
  return "DROP " ++ temporary ++ kind ++ exists? ++ " " ++ commas (names.map Path.render) ++
    (if cascade then " CASCADE" else "") ++ (if restrict then " RESTRICT" else "") ++
    (if purge then " PURGE" else "")

def setVariable (g : Grammar) : Parser String := do
  let scope ← oneOf ["SESSION", "LOCAL", "HIVEVAR"]
  if ← keyword "NAMES" then return "SET NAMES " ++ (← next |> fun t => do
      match ← t with
      | .quoted .plain content => pure (Text.quoted '\'' content)
      | .word value quote => pure (Ident.render ⟨value, quote⟩)
      | _ => failure)
  let name ←
    if ← keywords ["TIME", "ZONE"] then pure "TIMEZONE" else do pure (Path.render (← path))
  let before := match scope with
    | some "LOCAL" => "LOCAL "
    | some "HIVEVAR" => "HIVEVAR:"
    | _ => ""
  if ← either (symbol "=") (keyword "TO") then
    let values ← list (g.expr 0)
    return "SET " ++ before ++ name ++ " = " ++ commas (values.map Expr.render)
  else if name == "TIMEZONE" then return "SET " ++ before ++ "TIME ZONE " ++ (← g.expr 0).render
  else failure

def showStatement : Parser String := do
  return "SHOW" ++ carriedText false (.word "SHOW" none) (← carried)

def transaction (word : String) : Parser String := do
  match word with
  | "BEGIN" =>
    let modifier ← oneOf ["DEFERRED", "IMMEDIATE", "EXCLUSIVE"]
    let _ ← oneOf ["TRANSACTION", "WORK"]
    return "BEGIN" ++ spaced (modifier.getD "") ++ " TRANSACTION"
  | "START" =>
    need (keyword "TRANSACTION")
    return "START TRANSACTION"
  | _ =>
    let _ ← oneOf ["TRANSACTION", "WORK"]
    let chain := if ← keywords ["AND", "CHAIN"] then " AND CHAIN" else ""
    return (if word == "END" then "COMMIT" else word) ++ chain

/-- Statements that are carried along without a look at them. -/
def carriedWords : List String :=
  ["KILL", "FLUSH", "ANALYZE", "TRUNCATE", "ATTACH", "MSCK", "CACHE", "DISCARD", "DECLARE", "FETCH",
   "REPLACE", "UNCACHE", "ALTER", "CALL", "COPY", "CLOSE", "USE", "GRANT", "REVOKE", "SAVEPOINT",
   "RELEASE", "ASSERT", "DEALLOCATE", "EXECUTE", "PREPARE", "MERGE", "PRAGMA", "UNLOAD"]

/-- Statements in which parentheses follow a name directly. -/
def tightWords : List String := ["CALL", "EXECUTE", "PRAGMA", "UNLOAD", "ALTER"]

/-- A statement that is no query and explains no other. -/
def command (d : Dialect) (g : Grammar) (word : String) : Parser String := do
  match word with
  | "INSERT" => return (← insert d g).renderWith Query.render
  | "UPDATE" => return (← update d g).renderWith Query.render
  | "DELETE" => delete d g
  | "CREATE" => create d g
  | "DROP" => drop
  | "SET" => setVariable g
  | "SHOW" => showStatement
  | "BEGIN" | "START" | "COMMIT" | "ROLLBACK" | "END" => transaction word
  | _ =>
    if carriedWords.contains word then
      match ← carried with
      | [] => failure
      | ts => return word ++ carriedText (tightWords.contains word) (.word word none) ts
    else failure

def explainWords : List String := ["EXPLAIN", "DESCRIBE", "DESC"]

def explain (word : String) (statement : Parser Statement) : Parser String := do
  let analyze := if ← keyword "ANALYZE" then " ANALYZE" else ""
  let verbose := if ← keyword "VERBOSE" then " VERBOSE" else ""
  let format ← after "FORMAT" (needOneOf ["TEXT", "GRAPHVIZ", "JSON"])
  let format := match format with
    | some name => " FORMAT " ++ name
    | none => ""
  let nested ← explainWords.anyM fun word => looksAt [word]
  match ← attempt statement with
  | some s => if nested then failure else return word ++ analyze ++ verbose ++ format ++ " " ++ s.render
  | none =>
    let style ← oneOf ["EXTENDED", "FORMATTED"]
    let name ← path
    return word ++ spaced (style.getD "") ++ " " ++ Path.render name

def statement (d : Dialect) : Nat → Parser Statement
  | 0 => failure
  | n + 1 => do
    let g := grammar d n
    match (← peek) with
    | some (.symbol "(") => return .query (← g.query)
    | some t =>
      match t.bareWord? with
      | some "SELECT" | some "WITH" | some "VALUES" => return .query (← g.query)
      | some word =>
        let _ ← next
        if explainWords.contains word then return .command (← explain word (statement d n))
        return .command (← command d g word)
      | none => failure
    | none => failure

def semicolons : Parser Bool := do
  let found ← many do
    if ← symbol ";" then return some () else return none
  return !found.isEmpty

/-- Statements with semicolons between them; a statement may be followed by `END`. -/
def statementsUpTo (d : Dialect) : Nat → Bool → Parser (List Statement)
  | 0, _ => failure
  | n + 1, afterStatement => do
    let separated ← semicolons
    let pending := afterStatement && !separated
    match ← peek with
    | none => return []
    | some t =>
      if pending then
        if t.isWord "END" then return [] else failure
      let s ← statement d maxDepth
      return s :: (← statementsUpTo d n true)

def statements (d : Dialect) : Parser (List Statement) := do
  statementsUpTo d ((← get).length + 1) false

end SemanticLayer.Sql.Grammar
