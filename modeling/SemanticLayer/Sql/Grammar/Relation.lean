import SemanticLayer.Sql.Grammar.Expr

/-! # Reading FROM clauses -/

namespace SemanticLayer.Sql.Grammar

def labelSuffix : Parser String := do return aliasSuffix (← tableLabel?)

def labelled (e : Parser (Expr Query)) : Parser Written := do
  let e ← e
  match ← after "AS" identifier with
  | some label => return [.part e, .text (" AS " ++ label.render)]
  | none => return [.part e]

def aggregate (d : Dialect) (g : Grammar) : Parser Written :=
  labelled do
    match ← next with
    | .word value _ => call d g (operand d g) [⟨value, none⟩]
    | _ => failure

def pivotTurn (d : Dialect) (g : Grammar) : Parser (Expr Query) := do
  let turn ← parens do
    let aggregates ← list (aggregate d g)
    need (keyword "FOR")
    let column ← path
    need (keyword "IN")
    let values ← parens do
      if ← keyword "ANY" then
        match ← ordering? g with
        | some order => return Slot.text "ANY " :: order
        | none => return [Slot.text "ANY"]
      else if ← looksAtQuery then return [Slot.part (.query (← g.query))]
      else return Written.commas (← list (labelled (g.expr 0)))
    let default ← if ← keywords ["DEFAULT", "ON", "NULL"] then do
        let e ← parens (g.expr 0)
        pure [Slot.text " DEFAULT ON NULL (", .part e, .text ")"]
      else pure []
    return [Slot.text " PIVOT("] ++ Written.commas aggregates ++
      [Slot.text (" FOR " ++ Path.render column ++ " IN (")] ++ values ++ [Slot.text ")"] ++ default ++
      [Slot.text ")"]
  return Written.expr (turn ++ [.text (← labelSuffix)])

def unpivotTurn : Parser (Expr Query) := do
  let text ← parens do
    let value ← identifier
    need (keyword "FOR")
    let name ← identifier
    need (keyword "IN")
    let columns ← columnList
    return " UNPIVOT(" ++ value.render ++ " FOR " ++ name.render ++ " IN (" ++
      commas (columns.map Ident.render) ++ "))"
  return Expr.text (text ++ (← labelSuffix))

def turned (d : Dialect) (g : Grammar) : Relation Query → Parser (Relation Query) :=
  extend fun relation => do
    match ← oneOf ["PIVOT", "UNPIVOT"] with
    | some "PIVOT" => return some (.pivot relation (← pivotTurn d g))
    | some _ => return some (.pivot relation (← unpivotTurn))
    | none => return none

def derived (g : Grammar) (lateral : Bool) : Parser (Relation Query) := do
  let q ← g.query
  need (symbol ")")
  return .derived lateral q (← tableLabel?)

def valueRows (g : Grammar) : Parser (List (List (Expr Query)) × Bool) := do
  let rows ← list do
    let explicit ← keyword "ROW"
    return (explicit, ← parens (list (g.expr 0)))
  return (rows.map Prod.snd, rows.any Prod.fst)

def lateralCall (d : Dialect) (g : Grammar) : Parser (Relation Query) := do
  let name ← path
  let args ← parens (listBefore ")" (argument d g))
  let label ← labelSuffix
  return .other (Written.expr ([.text ("LATERAL " ++ Path.render name ++ "(")] ++
    Written.commas args ++ [.text (")" ++ label)]))

def tableCall (g : Grammar) : Parser (Relation Query) := do
  let e ← parens (g.expr 0)
  let label ← labelSuffix
  return .other (Written.expr [.text "TABLE(", .part e, .text (")" ++ label)])

def unnested (g : Grammar) : Parser (Relation Query) := do
  let arrays ← parens (list (g.expr 0))
  let ordinality := if ← keywords ["WITH", "ORDINALITY"] then " WITH ORDINALITY" else ""
  let label ← labelSuffix
  let offset ← if ← keywords ["WITH", "OFFSET"] then do
      match ← label? reservedForColumns with
      | some name => pure (" WITH OFFSET AS " ++ name.render)
      | none => pure " WITH OFFSET"
    else pure ""
  return .unnest arrays (ordinality ++ label ++ offset)

def namedTable (d : Dialect) (g : Grammar) : Parser (Relation Query) := do
  let name ← path
  let args ← if ← symbol "(" then do
      let args ← listBefore ")" (argument d g)
      need (symbol ")")
      pure (some (args.map fun
        | [.part e] => e
        | written => Written.expr written))
    else pure none
  let ordinality ← keywords ["WITH", "ORDINALITY"]
  let label ← tableLabel?
  let hints ←
    if startsWith ["WITH"] (← get) && (← get)[1]? == some (.symbol "(") then do
      let _ ← next
      let hints ← parens (list (g.expr 0))
      pure (Written.expr ([Slot.text " WITH ("] ++ Written.ofList hints ++ [Slot.text ")"]))
    else pure .empty
  turned d g (.table name args ordinality label hints)

def constraint (g : Grammar) (natural : Bool) : Parser (JoinConstraint Query) := do
  if natural then return .natural
  else if ← keyword "ON" then return .condition (← g.expr 0)
  else if ← keyword "USING" then return .columns (← columnList)
  else return .none

/-- The words before JOIN, as they are printed; nothing if no join comes next. -/
def joinWord? (natural : Bool) : Parser (Option String) := do
  match (← peek).bind Token.bareWord? with
  | some "INNER" | some "JOIN" =>
    let _ ← keyword "INNER"
    need (keyword "JOIN")
    return some ""
  | some "LEFT" => sided "LEFT "
  | some "RIGHT" => sided "RIGHT "
  | some "FULL" =>
    let _ ← next
    let _ ← keyword "OUTER"
    need (keyword "JOIN")
    return some "FULL "
  | some "OUTER" => failure
  | _ => if natural then failure else return none
where
  /-- A join that keeps rows of one side. -/
  sided (side : String) : Parser (Option String) := do
    let _ ← next
    match ← needOneOf ["OUTER", "SEMI", "ANTI", "JOIN"] with
    | "JOIN" => return some side
    | "OUTER" =>
      need (keyword "JOIN")
      return some side
    | word =>
      need (keyword "JOIN")
      return some (side ++ word ++ " ")

def join? (g : Grammar) (relation : Parser (Relation Query)) : Parser (Option (Join Query)) := do
  let isGlobal ← keyword "GLOBAL"
  if ← keyword "CROSS" then
    if ← keyword "JOIN" then return some (.mk isGlobal .cross (← relation) .none)
    else
      need (keyword "APPLY")
      return some (.mk isGlobal .crossApply (← relation) .none)
  else if ← keyword "OUTER" then
    need (keyword "APPLY")
    return some (.mk isGlobal .outerApply (← relation) .none)
  else if ← keyword "ASOF" then
    need (keyword "JOIN")
    let r ← relation
    need (keyword "MATCH_CONDITION")
    let condition ← parens (g.expr 0)
    return some (.mk isGlobal (.asOf condition) r (← constraint g false))
  else
    let natural ← keyword "NATURAL"
    match ← joinWord? natural with
    | none => return none
    | some word =>
      let r ← relation
      return some (.mk isGlobal (.plain word) r (← constraint g natural))

def joined (g : Grammar) (relation : Parser (Relation Query)) : Parser (FromItem Query) := do
  let first ← relation
  return ⟨first, ← many (join? g relation)⟩

def relabel (label : Alias) : Relation Query → Option (Relation Query)
  | .table name args ordinality none hints => some (.table name args ordinality (some label) hints)
  | .derived lateral q none => some (.derived lateral q (some label))
  | .nested first joins none => some (.nested first joins (some label))
  | .unnest arrays "" => some (.unnest arrays (aliasSuffix (some label)))
  | _ => none

/-- What stands in parentheses, behind the opening one: a query, a join, or (in the generic dialect)
    a lone relation. -/
def parenthesisedRelation (d : Dialect) (g : Grammar) (relation : Parser (Relation Query)) :
    Parser (Relation Query) := do
  match ← attempt (derived g false) with
  | some r => turned d g r
  | none =>
    let item ← joined g relation
    let isJoin := match item with
      | ⟨.nested _ _ _, _⟩ => true
      | ⟨_, joins⟩ => !joins.isEmpty
    if isJoin then
      need (symbol ")")
      return .nested item.first item.joins (← tableLabel?)
    else if d == .generic then
      need (symbol ")")
      match ← tableLabel? with
      | none => return item.first
      | some label =>
        match relabel label item.first with
        | some r => return r
        | none => failure
    else failure

def relationUpTo (d : Dialect) (g : Grammar) : Nat → Parser (Relation Query)
  | 0 => failure
  | n + 1 => do
    if ← keyword "LATERAL" then
      if ← symbol "(" then derived g true else lateralCall d g
    else if ← keyword "TABLE" then tableCall g
    else if ← symbol "(" then parenthesisedRelation d g (relationUpTo d g n)
    else
      let ts ← get
      if d == .generic && startsWith ["VALUES"] ts && ts[1]? == some (.symbol "(") then
        let _ ← next
        let (rows, explicit) ← valueRows g
        return .derived false { body := .values rows explicit } (← tableLabel?)
      else if ← guarded (d != .sqlite) (keyword "UNNEST") then unnested g
      else namedTable d g

def fromItem (d : Dialect) (g : Grammar) : Parser (FromItem Query) := do
  joined g (relationUpTo d g ((← get).length + 1))

end SemanticLayer.Sql.Grammar
