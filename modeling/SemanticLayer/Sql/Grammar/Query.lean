import SemanticLayer.Sql.Grammar.Select

/-! # Reading queries

`grammar n` reads expressions and queries that nest at most `n` deep. `maxDepth` bounds the nesting of
a statement.
-/

namespace SemanticLayer.Sql.Grammar

def returning? (d : Dialect) (g : Grammar) : Parser String := do
  match ← after "RETURNING" (list (selectItem d g)) with
  | some items => return " RETURNING " ++ commas (items.map (SelectItem.renderWith Query.render))
  | none => return ""

def assignment (g : Grammar) : Parser Written := do
  let target ←
    if ← looksAtSymbol "(" then do
      pure ("(" ++ commas ((← parens (list path)).map Path.render) ++ ")")
    else do pure (Path.render (← path))
  need (symbol "=")
  return [.text (target ++ " = "), .part (← g.expr 0)]

/-- What an INSERT does with a row that is there already. -/
def onConflict? (g : Grammar) : Parser Written := do
  if !(← keyword "ON") then return []
  if ← keyword "CONFLICT" then
    let target ←
      if ← keywords ["ON", "CONSTRAINT"] then do pure (" ON CONSTRAINT " ++ Path.render (← path))
      else if ← looksAtSymbol "(" then do
        pure ("(" ++ commas ((← parens (list identifier)).map Ident.render) ++ ")")
      else pure ""
    need (keyword "DO")
    if ← keyword "NOTHING" then return [.text (" ON CONFLICT" ++ target ++ " DO NOTHING")]
    need (keywords ["UPDATE", "SET"])
    let assignments ← list (assignment g)
    let filter ← after "WHERE" (g.expr 0)
    return .text (" ON CONFLICT" ++ target ++ " DO UPDATE SET ") :: Written.commas assignments ++
      Written.orNone " WHERE " (filter.map fun e => [.part e])
  need (keywords ["DUPLICATE", "KEY", "UPDATE"])
  return .text " ON DUPLICATE KEY UPDATE " :: Written.commas (← list (assignment g))

def insert (d : Dialect) (g : Grammar) : Parser (Write Query) := do
  let conflict ← if d == .sqlite then after "OR" (needOneOf ["REPLACE", "ROLLBACK", "ABORT", "FAIL", "IGNORE"])
    else pure none
  let ignore ← guarded (d == .generic) (keyword "IGNORE")
  let action ← oneOf ["INTO", "OVERWRITE"]
  let table ← keyword "TABLE"
  let name ← path
  let label ← if d == .postgres then after "AS" identifier else pure none
  let start := match conflict with
    | some word => "INSERT OR " ++ word ++ " INTO "
    | none => "INSERT" ++ (if ignore then " IGNORE" else "") ++ spaced (action.getD "") ++
        (if table then " TABLE" else "") ++ " "
  let change ←
    if ← keywords ["DEFAULT", "VALUES"] then pure [Slot.text " DEFAULT VALUES"]
    else do
      let opens := match ← get with
        | .symbol "(" :: rest => startsWith ["SELECT"] rest || startsWith ["WITH"] rest
        | _ => false
      let columns ← if opens then pure [] else columnList?
      let q ← g.query
      let columns := if columns.isEmpty then " " else " (" ++ commas (columns.map Ident.render) ++ ") "
      pure [.text columns, .part (.query q)]
  let conflictRest ← onConflict? g
  return { start, target := ⟨.table name none false (label.map fun name => { name }) .empty, []⟩
           change := Written.expr (change ++ conflictRest ++ [.text (← returning? d g)]) }

def update (d : Dialect) (g : Grammar) : Parser (Write Query) := do
  let target ← fromItem d g
  need (keyword "SET")
  let assignments ← list (assignment g)
  let source ← after "FROM" (fromItem d g)
  let filter ← after "WHERE" (g.expr 0)
  let trailer := Written.orNone " WHERE " (filter.map fun e => [.part e]) ++
    [.text (← returning? d g)]
  return { start := "UPDATE ", target, source
           change := Written.expr (.text " SET " :: Written.commas assignments)
           trailer := Written.expr trailer }

/-- A set operation and its quantifier, with how tightly it binds; left in place. -/
def setOperator? : Parser (Option (String × Nat)) := do
  match (← peek).bind Token.bareWord? with
  | some "UNION" => return some ("UNION", 10)
  | some "EXCEPT" => return some ("EXCEPT", 10)
  | some "INTERSECT" => return some ("INTERSECT", 20)
  | _ => return none

/-- The quantifier of a set operation, with a space before it. -/
def setQuantifier : Parser String := do
  if ← keywords ["DISTINCT", "BY", "NAME"] then return " DISTINCT BY NAME"
  else if ← keywords ["BY", "NAME"] then return " BY NAME"
  else if ← keywords ["ALL", "BY", "NAME"] then return " ALL BY NAME"
  else if ← keyword "ALL" then return " ALL"
  else if ← keyword "DISTINCT" then return " DISTINCT"
  else return ""

/-- `TABLE` behind its keyword. It always takes three tokens, as far as there are any. -/
def tableBody : Parser (Body Query) := do
  let ts ← get
  set (ts.drop 3)
  match ts with
  | .word schema _ :: .symbol "." :: .word name _ :: _ => return .table (schema ++ "." ++ name)
  | _ :: .symbol "." :: _ => failure
  | .word name _ :: _ => return .table name
  | _ => failure

def bodyStart (d : Dialect) (g : Grammar) : Parser (Body Query) := do
  if ← keyword "SELECT" then return .select (← select d g)
  else if ← looksAtSymbol "(" then return .query (← parens g.query)
  else if ← keyword "VALUES" then
    let (rows, explicit) ← valueRows g
    return .values rows explicit
  else if ← keyword "TABLE" then tableBody
  else failure

/-- A query body whose set operations bind tighter than a bound; they nest at most `n` deep. -/
def bodyUpTo (d : Dialect) (g : Grammar) : Nat → Nat → Parser (Body Query)
  | 0, _ => failure
  | n + 1, bound => do
    let first ← bodyStart d g
    extend (fun left => do
      match ← setOperator? with
      | none => return none
      | some (word, strength) =>
        if bound ≥ strength then return none
        let _ ← next
        let quantifier ← setQuantifier
        return some (.setOp (word ++ quantifier) left (← bodyUpTo d g n strength))) first

def cte (d : Dialect) (g : Grammar) : Parser (Cte Query) := do
  let name ← identifier
  let columns ← if ← looksAt ["AS"] then pure [] else columnList?
  need (keyword "AS")
  let materialized ←
    if d == .postgres then do
      if ← keyword "MATERIALIZED" then pure (some true)
      else if ← keywords ["NOT", "MATERIALIZED"] then pure (some false)
      else pure none
    else pure none
  let query ← parens g.query
  let origin ← after "FROM" identifier
  return { name, columns, materialized, query, origin }

/-- LIMIT and OFFSET as far as they are read. -/
structure Window where
  limit : Option (Expr Query) := none
  offset : Option Written := none

/-- One round of reading LIMIT and OFFSET, which may come in either order. -/
def limits (d : Dialect) (g : Grammar) (w : Window) : Parser Window := do
  let limit ←
    if w.limit.isNone then do
      if ← keyword "LIMIT" then do
        if ← keyword "ALL" then pure none else do pure (some (← g.expr 0))
      else pure none
    else pure w.limit
  let offset ←
    if w.offset.isNone then do
      if ← keyword "OFFSET" then do
        let e ← g.expr 0
        let rows ← oneOf ["ROWS", "ROW"]
        pure (some [Slot.text " OFFSET ", .part e, .text (spaced (rows.getD ""))])
      else pure none
    else pure w.offset
  match limit, offset with
  | some count, none =>
    if ← guarded (d == .generic) (symbol ",") then
      return ⟨some (← g.expr 0), some [.text " OFFSET ", .part count]⟩
    else return ⟨limit, offset⟩
  | _, _ => return ⟨limit, offset⟩

def fetch? (d : Dialect) : Parser Written := do
  if ← keyword "FETCH" then
    let _ ← needOneOf ["FIRST", "NEXT"]
    let quantity ←
      if (← oneOf ["ROW", "ROWS"]).isSome then pure []
      else do
        let value ← literal d
        let percent := if ← keyword "PERCENT" then " PERCENT" else ""
        let _ ← needOneOf ["ROW", "ROWS"]
        pure [Slot.text " ", .part (.literal value), .text percent]
    let extension ←
      if ← keyword "ONLY" then pure "ONLY"
      else do
        need (keywords ["WITH", "TIES"])
        pure "WITH TIES"
    return [.text " FETCH FIRST"] ++ quantity ++ [.text (" ROWS " ++ extension)]
  else return []

def elementName? (d : Dialect) : Parser String := do
  if ← looksAtSymbol "(" then return "('" ++ (← parens (stringLiteral d)) ++ "')" else return ""

/-- The options behind the kind of a document, in the order in which they are printed. -/
def documentOptions (d : Dialect) (known : List (List String)) : Parser String := do
  let found ← many do
    if ← symbol "," then return some (← firstOf known) else return none
  return String.join (known.map fun words =>
    match found.reverse.find? fun f => f.1 == words with
    | some (_, text) => text
    | none => "")
where
  /-- The option that comes next, and its text; nothing is taken if none does. -/
  firstOf : List (List String) → Parser (List String × String)
    | [] => return ([], "")
    | words :: rest => do
      if ← keyword (words.headD "") then
        need (keywords words.tail)
        if words == ["ROOT"] then
          let name ← parens (stringLiteral d)
          return (words, ", ROOT('" ++ name ++ "')")
        else return (words, ", " ++ " ".intercalate words)
      else firstOf rest

/-- What a query makes of its rows, behind FOR, with a space before it: a document. -/
def document? (d : Dialect) : Parser (Option String) := do
  if ← keyword "XML" then
    let kind ← match ← needOneOf ["RAW", "AUTO", "EXPLICIT", "PATH"] with
      | "RAW" => do pure ("RAW" ++ (← elementName? d))
      | "PATH" => do pure ("PATH" ++ (← elementName? d))
      | word => pure word
    return some (" FOR XML " ++ kind ++
      (← documentOptions d [["BINARY", "BASE64"], ["TYPE"], ["ROOT"], ["ELEMENTS"]]))
  else if ← keyword "JSON" then
    let kind ← needOneOf ["AUTO", "PATH"]
    return some (" FOR JSON " ++ kind ++
      (← documentOptions d [["ROOT"], ["INCLUDE_NULL_VALUES"], ["WITHOUT_ARRAY_WRAPPER"]]))
  else if ← keyword "BROWSE" then return some " FOR BROWSE"
  else return none

/-- One lock, with a space before it, if it comes next. -/
def lock? : Parser (Option String) := do
  if ← looksAtDocument then return none
  if ← keyword "FOR" then
    let kind ← needOneOf ["UPDATE", "SHARE"]
    let tables ← after "OF" path
    let wait ←
      if ← keyword "NOWAIT" then pure " NOWAIT"
      else if ← keywords ["SKIP", "LOCKED"] then pure " SKIP LOCKED"
      else pure ""
    return some (" FOR " ++ kind ++ (match tables with
      | some name => " OF " ++ Path.render name
      | none => "") ++ wait)
  else return none
where
  /-- Whether FOR says what document the rows become. -/
  looksAtDocument : Parser Bool := do
    let ts ← get
    return ["XML", "JSON", "BROWSE"].any fun word => startsWith ["FOR", word] ts

def setting (d : Dialect) : Parser String := do
  let key ← identifier
  need (symbol "=")
  return key.render ++ " = " ++ (← literal d).render

/-- What only the generic dialect allows behind LIMIT, with a space before it. -/
def limitKeys? (d : Dialect) (g : Grammar) : Parser Written := do
  if ← guarded (d == .generic) (keyword "BY") then
    return .text " BY " :: Written.ofList (← list (g.expr 0))
  else return []

/-- A query, one level above the nested ones. -/
def queryAbove (d : Dialect) (g : Grammar) : Parser Query := do
  let (recursive, ctes) ←
    if ← keyword "WITH" then do
      let recursive ← keyword "RECURSIVE"
      pure (recursive, ← list (cte d g))
    else pure (false, [])
  if ← keyword "INSERT" then return { recursive, ctes, body := .write (← insert d g) }
  if ← keyword "UPDATE" then return { recursive, ctes, body := .write (← update d g) }
  let body ← bodyUpTo d g ((← get).length + 1) 0
  let orderBy ← if ← keywords ["ORDER", "BY"] then list (orderItem g) else pure []
  let w ← limits d g {}
  let w ← limits d g w
  let keys ← limitKeys? d g
  let settings ← if d == .generic then after "SETTINGS" (list (setting d)) else pure none
  let fetch ← fetch? d
  let locks ← many lock?
  let document ← if ← keyword "FOR" then document? d else pure none
  let format ← if d == .generic then after "FORMAT" identifier else pure none
  let text (before : String) (t : Option String) : Written := match t with
    | some t => [.text (before ++ t)]
    | none => []
  let trailer := w.offset.getD [] ++ keys ++ text " SETTINGS " (settings.map commas) ++ fetch ++
    locks.map Slot.text ++ text "" document ++ text " FORMAT " (format.map Ident.render)
  return { recursive, ctes, body, orderBy, limit := w.limit,
           trailer := if trailer.isEmpty then .empty else Written.expr trailer }

/-- Expressions and queries that nest at most `n` deep. -/
def grammar (d : Dialect) : Nat → Grammar
  | 0 => ⟨fun _ => failure, failure⟩
  | n + 1 => ⟨exprAbove d (grammar d n), queryAbove d (grammar d n)⟩

def maxDepth : Nat := 50

end SemanticLayer.Sql.Grammar
