import SemanticLayer.Sql.Grammar.DataType

/-! # Reading function calls

`Grammar` holds what an expression and a query are one level of nesting further down; everything in
a call that nests is read through it.
-/

namespace SemanticLayer.Sql

/-- The expressions and queries that may be nested. -/
structure Grammar where
  /-- An expression whose operators bind tighter than a bound. -/
  expr : Nat → Parser (Expr Query)
  query : Parser Query

namespace Grammar

/-- What may stand where a wildcard may. -/
inductive Starred where
  | star
  | qualified (name : Path)
  | expr (e : Expr Query)

/-- Dotted parts behind a first one: a name, or a wildcard at its end. -/
def dotted : Nat → Path → Parser (Path × Bool)
  | 0, parts => return (parts, false)
  | n + 1, parts => do
    if ← symbol "." then
      match ← next with
      | .word value quote => dotted n (parts ++ [⟨value, quote⟩])
      | .quoted .plain content => dotted n (parts ++ [⟨content, some '\''⟩])
      | .symbol "*" => return (parts, true)
      | _ => failure
    else return (parts, false)

/-- The qualifier of a wildcard, or the parts of a name if there is none. -/
def dottedName (first : Ident) : Parser (Path × Bool) := do
  dotted ((← get).length + 1) [first]

def starred (g : Grammar) : Parser Starred := do
  let ts ← get
  match ts with
  | .symbol "*" :: rest =>
    set rest
    return .star
  | t :: .symbol "." :: _ =>
    let first : Option Ident := match t with
      | .word value quote => some ⟨value, quote⟩
      | .quoted .plain content => some ⟨content, some '\''⟩
      | _ => none
    match first with
    | none => return .expr (← g.expr 0)
    | some first =>
      let _ ← next
      let (name, wildcard) ← dottedName first
      if wildcard then return .qualified name
      else
        set ts
        return .expr (← g.expr 0)
  | _ => return .expr (← g.expr 0)

def Starred.written : Starred → Written
  | .star => [.text "*"]
  | .qualified name => [.text (Path.render name ++ ".*")]
  | .expr e => [.part e]

def orderItem (g : Grammar) : Parser (OrderItem Query) := do
  let expr ← g.expr 0
  let ascending ←
    if ← keyword "ASC" then pure (some true)
    else if ← keyword "DESC" then pure (some false)
    else pure none
  let nullsFirst ←
    if ← keywords ["NULLS", "FIRST"] then pure (some true)
    else if ← keywords ["NULLS", "LAST"] then pure (some false)
    else pure none
  return { expr, ascending, nullsFirst }

def ordering? (g : Grammar) : Parser (Option Written) := do
  if ← keywords ["ORDER", "BY"] then
    let items ← list (orderItem g)
    return some (.text "ORDER BY " :: Written.commas (items.map Written.ofOrder))
  else return none

def argument (d : Dialect) (g : Grammar) : Parser Written := do
  let ts ← get
  if ts[1]? == some (.symbol "=>") then named " => "
  else if d == .generic && ts[1]? == some (.symbol ":=") then named " := "
  else return (← starred g).written
where
  named (between : String) : Parser Written := do
    let name ← identifier
    let _ ← next
    return .text (name.render ++ between) :: (← starred g).written

def nullTreatment? : Parser (Option String) := do
  match ← oneOf ["RESPECT", "IGNORE"] with
  | some word =>
    need (keyword "NULLS")
    return some (word ++ " NULLS")
  | none => return none

/-- What stands in a call behind the opening parenthesis, and whether it treats nulls. -/
def arguments (d : Dialect) (g : Grammar) : Parser (Written × Bool) := do
  if ← symbol ")" then return ([.text "()"], false)
  let isAll ← keyword "ALL"
  let isDistinct ← keyword "DISTINCT"
  if isAll && isDistinct then failure
  let args ← list (argument d g)
  let nulls ← if d == .generic then nullTreatment? else pure none
  let order ← ordering? g
  let limit ← after "LIMIT" (g.expr 0)
  let having ← if d == .generic then after "HAVING" (do
      let bound ← needOneOf ["MIN", "MAX"]
      pure (bound, ← g.expr 0))
    else pure none
  let separator ← if d == .generic then after "SEPARATOR" (literal d) else pure none
  need (symbol ")")
  let clauses : List (Option Written) :=
    [nulls.map fun s => [.text s], order, limit.map fun e => [.text "LIMIT ", .part e],
     having.map fun (bound, e) => [.text ("HAVING " ++ bound ++ " "), .part e],
     separator.map fun v => [.text ("SEPARATOR " ++ v.render)]]
  let written := clauses.filterMap id
  let quantifier := if isAll then "ALL " else if isDistinct then "DISTINCT " else ""
  return ([.text ("(" ++ quantifier)] ++ Written.commas args ++
    written.flatMap (fun w => .text " " :: w) ++ [.text ")"], nulls.isSome)

def dateFields : List String :=
  ["YEAR", "MONTH", "WEEK", "DAY", "DAYOFWEEK", "DAYOFYEAR", "DATE", "DATETIME", "HOUR", "MINUTE",
   "SECOND", "CENTURY", "DECADE", "DOY", "DOW", "EPOCH", "ISOWEEK", "ISOYEAR", "ISODOW", "JULIAN",
   "MICROSECOND", "MICROSECONDS", "MILLENIUM", "MILLENNIUM", "MILLISECOND", "MILLISECONDS",
   "NANOSECOND", "NANOSECONDS", "QUARTER", "TIME", "TIMEZONE", "TIMEZONE_ABBR", "TIMEZONE_HOUR",
   "TIMEZONE_MINUTE", "TIMEZONE_REGION"]

def intervalFields : List String :=
  ["YEAR", "MONTH", "WEEK", "DAY", "HOUR", "MINUTE", "SECOND", "CENTURY", "DECADE", "DOW", "DOY",
   "EPOCH", "ISODOW", "ISOYEAR", "JULIAN", "MICROSECOND", "MICROSECONDS", "MILLENIUM", "MILLENNIUM",
   "MILLISECOND", "MILLISECONDS", "NANOSECOND", "NANOSECONDS", "QUARTER", "TIMEZONE",
   "TIMEZONE_HOUR", "TIMEZONE_MINUTE"]

def dateField (d : Dialect) : Parser String := do
  match ← next with
  | .word value quote =>
    let upper := Text.upperAscii value
    if quote.isNone && upper == "WEEK" && d == .generic then
      if ← looksAtSymbol "(" then
        let day ← parens identifier
        return "WEEK(" ++ day.render ++ ")"
      else return "WEEK"
    else if quote.isNone && dateFields.contains upper then return upper
    else if d == .sqlite then failure
    else return Ident.render ⟨value, quote⟩
  | .quoted .plain content => if d == .sqlite then failure else return Text.quoted '\'' content
  | _ => failure

def spacedPrecision? : Parser String := do return spaced (← precision?)

/-- An interval behind its keyword, given how its value is read. -/
def interval (d : Dialect) (value : Parser (Expr Query)) : Parser (Expr Query) := do
  let e ← value
  let leading ← match (← peek).bind Token.bareWord? with
    | some word =>
      if intervalFields.contains word then do pure (some (← dateField d)) else pure none
    | none => pure none
  let suffix ←
    if leading == some "SECOND" then do
      if ← symbol "(" then do
        let whole ← unsigned
        let places ← if ← symbol "," then do pure (", " ++ toString (← unsigned)) else pure ""
        need (symbol ")")
        pure (" (" ++ toString whole ++ places ++ ")")
      else pure ""
    else do
      let precision ← spacedPrecision?
      let last ← after "TO" (do
        let field ← dateField d
        if field == "SECOND" then pure (field ++ (← spacedPrecision?)) else pure field)
      pure (precision ++ (match last with
        | some field => " TO " ++ field
        | none => ""))
  return Written.expr [.text "INTERVAL ", .part e,
    .text ((match leading with
      | some field => " " ++ field
      | none => "") ++ suffix)]

def frameBound (d : Dialect) (g : Grammar) (operand : Parser (Expr Query)) : Parser Written := do
  if ← keywords ["CURRENT", "ROW"] then return [.text "CURRENT ROW"]
  let distance ←
    if ← keyword "UNBOUNDED" then pure [Slot.text "UNBOUNDED"]
    else match ← peek with
      | some (.quoted .plain _) => do pure [Slot.part (← interval d operand)]
      | _ => do pure [Slot.part (← g.expr 0)]
  let direction ← needOneOf ["PRECEDING", "FOLLOWING"]
  return distance ++ [.text (" " ++ direction)]

def frame (d : Dialect) (g : Grammar) (operand : Parser (Expr Query)) : Parser Written := do
  let units ← needOneOf ["ROWS", "RANGE", "GROUPS"]
  if ← keyword "BETWEEN" then
    let first ← frameBound d g operand
    need (keyword "AND")
    let last ← frameBound d g operand
    return [.text (units ++ " BETWEEN ")] ++ first ++ [.text " AND "] ++ last
  else
    let first ← frameBound d g operand
    return .text (units ++ " ") :: first

def window (d : Dialect) (g : Grammar) (operand : Parser (Expr Query)) : Parser Written := do
  let name ← match ← peek with
    | some (.word value quote) =>
      if quote.isNone && isKeyword value then pure none
      else do pure (some (← identifier))
    | _ => pure none
  let partition ← if ← keywords ["PARTITION", "BY"] then do
      let keys ← list (g.expr 0)
      pure (some (Slot.text "PARTITION BY " :: Written.ofList keys))
    else pure none
  let order ← ordering? g
  let frame? ← if ← symbol ")" then pure none else do
    let f ← frame d g operand
    need (symbol ")")
    pure (some f)
  let clauses : List (Option Written) :=
    [name.map fun n => [.text n.render], partition, order, frame?]
  return [.text "("] ++ [Slot.text " "].intercalate (clauses.filterMap id) ++ [.text ")"]

/-- A call of its parts. `WITHIN GROUP` is written before FILTER and OVER but walked after them. -/
def callOf (name : Path) (args : Written) (within filter : Written) (nulls : String) (window : Written) : Expr Query :=
  let first := args.parts.length
  let second := first + filter.parts.length
  let third := second + window.parts.length
  .call name
    (args.shapeFrom 0 ++ within.shapeFrom third ++ filter.shapeFrom first ++ [.text nulls] ++
      window.shapeFrom second)
    (args.parts ++ filter.parts ++ window.parts ++ within.parts)

def call (d : Dialect) (g : Grammar) (operand : Parser (Expr Query)) (name : Path) : Parser (Expr Query) := do
  need (symbol "(")
  let (first, firstNulls) ← arguments d g
  let (args, treatsNulls) ←
    if ← guarded (d == .generic) (symbol "(") then do
      let (second, nulls) ← arguments d g
      pure (first ++ second, nulls)
    else pure (first, firstNulls)
  let within ← if ← keywords ["WITHIN", "GROUP"] then do
      let order ← parens (ordering? g)
      match order with
      | some order => pure ([Slot.text " WITHIN GROUP ("] ++ order ++ [Slot.text ")"])
      | none => failure
    else pure []
  let filter ←
    if ← guarded (d != .generic) (keyword "FILTER") then do
      if ← symbol "(" then do
        if ← keyword "WHERE" then do
          let condition ← g.expr 0
          need (symbol ")")
          pure [Slot.text " FILTER (WHERE ", .part condition, .text ")"]
        else pure []
      else pure []
    else pure []
  let nulls ← if treatsNulls then pure none else nullTreatment?
  let window ← if ← keyword "OVER" then do
      if ← symbol "(" then do pure (Slot.text " OVER " :: (← window d g operand))
      else do pure [Slot.text (" OVER " ++ (← identifier).render)]
    else pure []
  return callOf name args within filter (spaced (nulls.getD "")) window

end Grammar

end SemanticLayer.Sql
