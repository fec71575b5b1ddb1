import SemanticLayer.Sql.Grammar.Relation

/-! # Reading SELECT -/

namespace SemanticLayer.Sql.Grammar

def wildcardOptions (d : Dialect) (g : Grammar) : Parser (Expr Query) := do
  if d != .generic then return .empty
  let ilike ← after "ILIKE" (stringLiteral d)
  let exclude ← if ilike.isSome then pure none else after "EXCLUDE" (do
    if ← looksAtSymbol "(" then bracketed else return (← identifier).render)
  let except ← after "EXCEPT" (do
    if ← looksAtSymbol "(" then bracketed else return "(" ++ (← identifier).render ++ ")")
  let replace ← after "REPLACE" (parens (list do
    let e ← g.expr 0
    let between := if ← keyword "AS" then " AS " else " "
    let name ← identifier
    return [Slot.part e, .text (between ++ name.render)]))
  let rename ← after "RENAME" (do
    if ← looksAtSymbol "(" then do
      pure ("(" ++ commas (← parens (list renamed)) ++ ")")
    else renamed)
  let text (before : String) (t : Option String) : Written := match t with
    | some t => [.text (before ++ t)]
    | none => []
  return Written.expr (text " ILIKE " (ilike.map (Text.quoted '\'')) ++ text " EXCLUDE " exclude ++
    text " EXCEPT " except ++
    (match replace with
      | some items => [.text " REPLACE ("] ++ Written.commas items ++ [.text ")"]
      | none => []) ++
    text " RENAME " rename)
where
  bracketed : Parser String := do return "(" ++ commas ((← columnList).map Ident.render) ++ ")"
  /-- A column and its new name. -/
  renamed : Parser String := do
    let old ← identifier
    let _ ← keyword "AS"
    return old.render ++ " AS " ++ (← identifier).render

def selectItem (d : Dialect) (g : Grammar) : Parser (SelectItem Query) := do
  match ← starred g with
  | .star => return .wildcard (← wildcardOptions d g)
  | .qualified name => return .qualifiedWildcard name (← wildcardOptions d g)
  | .expr e =>
    let misplaced := match e with
      | .ident ⟨value, none⟩ => Text.lower value == "from"
      | _ => false
    if misplaced then failure
    match ← label? reservedForColumns with
    | some label => return .aliased e label
    | none => return .expr e

def distinct? (g : Grammar) : Parser Written := do
  let all ← keyword "ALL"
  if ← keyword "DISTINCT" then
    if all then failure
    if ← keyword "ON" then
      let keys ← parens (listBefore ")" (g.expr 0))
      return [.text " DISTINCT ON ("] ++ Written.ofList keys ++ [.text ")"]
    else return [.text " DISTINCT"]
  else return []

def top? (g : Grammar) : Parser Written := do
  if ← keyword "TOP" then
    let quantity ←
      if ← looksAtSymbol "(" then do
        let e ← parens (g.expr 0)
        pure [Slot.text " TOP (", .part e, .text ")"]
      else do
        match ← next with
        | .number digits _ =>
          if digits.all Char.isDigit then
            pure [Slot.text (" TOP " ++ toString (Token.digitsValue 10 digits.toList))]
          else failure
        | _ => failure
    let percent := if ← keyword "PERCENT" then " PERCENT" else ""
    let ties := if ← keywords ["WITH", "TIES"] then " WITH TIES" else ""
    return quantity ++ [.text (percent ++ ties)]
  else return []

def intoTarget : Parser String := do
  let temporary ← oneOf ["TEMP", "TEMPORARY"]
  let unlogged ← keyword "UNLOGGED"
  let table ← keyword "TABLE"
  let name ← path
  return "INTO" ++ (if temporary.isSome then " TEMPORARY" else "") ++
    (if unlogged then " UNLOGGED" else "") ++ (if table then " TABLE" else "") ++ " " ++
    Path.render name

/-- Expressions in parentheses; a lone expression may stand without them. -/
def groupingSet (g : Grammar) (lone : Bool) : Parser (List (Expr Query)) := do
  if lone && !(← looksAtSymbol "(") then return [← g.expr 0]
  else parens (listBefore ")" (g.expr 0))

def rolled (g : Grammar) (word : String) : Parser (Expr Query) := do
  let sets ← parens (list (groupingSet g true))
  let written := sets.map fun
    | [e] => [Slot.part e]
    | es => [.text "("] ++ Written.ofList es ++ [.text ")"]
  return Written.expr ([.text (word ++ " (")] ++ Written.commas written ++ [.text ")"])

def groupItem (d : Dialect) (g : Grammar) : Parser (Expr Query) := do
  if d == .sqlite then g.expr 0
  else if ← keywords ["GROUPING", "SETS"] then
    let sets ← parens (list (groupingSet g false))
    let written := sets.map fun es => [Slot.text "("] ++ Written.ofList es ++ [.text ")"]
    return Written.expr ([.text "GROUPING SETS ("] ++ Written.commas written ++ [.text ")"])
  else if ← keyword "CUBE" then rolled g "CUBE"
  else if ← keyword "ROLLUP" then rolled g "ROLLUP"
  else
    match ← get with
    | .symbol "(" :: .symbol ")" :: rest =>
      set rest
      return Expr.text "()"
    | _ => g.expr 0

def grouping (d : Dialect) (g : Grammar) : Parser (GroupBy Query) := do
  let items ← if ← keyword "ALL" then pure none else do pure (some (← list (groupItem d g)))
  let modifiers ← if d == .generic then many (do
      if ← keyword "WITH" then
        return some ("WITH " ++ (← needOneOf ["ROLLUP", "CUBE", "TOTALS"]))
      else return none)
    else pure []
  let text := " ".intercalate modifiers
  match items with
  | none => return .all text
  | some items => return .exprs items text

def lateralView? (g : Grammar) : Parser (Option Written) := do
  if ← keywords ["LATERAL", "VIEW"] then
    let outer := if ← keyword "OUTER" then " OUTER" else ""
    let e ← g.expr 0
    let name ← path
    let labels ← list (label? ["WHERE", "GROUP", "CLUSTER", "HAVING", "LATERAL"])
    let columns := match labels.filterMap id with
      | [] => ""
      | columns => " AS " ++ commas (columns.map Ident.render)
    return some [.text (" LATERAL VIEW" ++ outer ++ " "), .part e,
      .text (" " ++ Path.render name ++ columns)]
  else return none

def byClause (g : Grammar) (word : String) : Parser Written := do
  if ← keywords [word, "BY"] then
    return .text (" " ++ word ++ " BY ") :: Written.ofList (← list (g.expr 0))
  else return []

def namedWindow (d : Dialect) (g : Grammar) : Parser Written := do
  let name ← identifier
  need (keyword "AS")
  if ← symbol "(" then return .text (name.render ++ " AS ") :: (← window d g (operand d g))
  else if d == .generic then return [.text (name.render ++ " AS " ++ (← identifier).render)]
  else failure

def windows? (d : Dialect) (g : Grammar) : Parser (Expr Query) := do
  if ← keyword "WINDOW" then
    return Written.expr (.text " WINDOW " :: Written.commas (← list (namedWindow d g)))
  else return .empty

def hierarchy? (d : Dialect) (g : Grammar) : Parser Written := do
  if d != .generic then return []
  if ← keywords ["START", "WITH"] then
    let start ← g.expr 0
    need (keywords ["CONNECT", "BY"])
    return connected start (← list (g.expr 0))
  else if ← keywords ["CONNECT", "BY"] then
    let links ← list (g.expr 0)
    need (keywords ["START", "WITH"])
    return connected (← g.expr 0) links
  else return []
where
  connected (start : Expr Query) (links : List (Expr Query)) : Written :=
    [.text " START WITH ", .part start, .text " CONNECT BY "] ++ Written.ofList links

def select (d : Dialect) (g : Grammar) : Parser (Select Query) := do
  let distinct ← distinct? g
  let top ← top? g
  let items ← list (selectItem d g)
  let into ← after "INTO" intoTarget
  let source ← if ← keyword "FROM" then list (fromItem d g) else pure []
  let views ← many (lateralView? g)
  let prewhere ← if ← guarded (d == .generic) (keyword "PREWHERE") then do
      pure [Slot.text " PREWHERE ", .part (← g.expr 0)]
    else pure []
  let filter ← after "WHERE" (g.expr 0)
  let groupBy ← if ← keywords ["GROUP", "BY"] then grouping d g else pure (.exprs [] "")
  let cluster ← byClause g "CLUSTER"
  let distribute ← byClause g "DISTRIBUTE"
  let sort ← byClause g "SORT"
  let having ← after "HAVING" (g.expr 0)
  let windows ← windows? d g
  let qualify ← after "QUALIFY" (g.expr 0)
  let late ← match windows, qualify with
    | .form [] [], some _ => windows? d g
    | _, _ => pure .empty
  let hierarchy ← hierarchy? d g
  return { quantifier := Written.expr (distinct ++ top), items, into, source,
           views := Written.expr (views.flatten ++ prewhere), filter, groupBy,
           distribution := Written.expr (cluster ++ distribute ++ sort), having, windows, qualify,
           trailer := Written.expr (.part late :: hierarchy) }

end SemanticLayer.Sql.Grammar
