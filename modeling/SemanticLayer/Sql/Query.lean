import SemanticLayer.Sql.Relation

/-! # Queries

A query is a WITH clause, a body and an ordering. Its parts are written over an arbitrary type of
nested queries; `Query` ties the knot. Functions on queries recurse on a bound for the nesting, and
`Query.height` is enough of it.
-/

namespace SemanticLayer.Sql

/-- An item of a select list. The text after a wildcard (`EXCEPT ...`) is kept with it. -/
inductive SelectItem (Q : Type) where
  | wildcard (options : Expr Q)
  | qualifiedWildcard (name : Path) (options : Expr Q)
  | expr (e : Expr Q)
  | aliased (e : Expr Q) (label : Ident)

/-- A GROUP BY clause; a SELECT without one groups by no expressions. -/
inductive GroupBy (Q : Type) where
  | all (modifiers : String)
  | exprs (items : List (Expr Q)) (modifiers : String)

/-- One SELECT. The clauses that are not looked at are kept where they are written. -/
structure Select (Q : Type) where
  /-- `DISTINCT` and `TOP`. -/
  quantifier : Expr Q := .empty
  items : List (SelectItem Q)
  into : Option String := none
  source : List (FromItem Q) := []
  views : Expr Q := .empty
  filter : Option (Expr Q) := none
  groupBy : GroupBy Q := .exprs [] ""
  /-- What stands between GROUP BY and HAVING. -/
  distribution : Expr Q := .empty
  having : Option (Expr Q) := none
  windows : Expr Q := .empty
  qualify : Option (Expr Q) := none
  /-- What stands after `QUALIFY`. -/
  trailer : Expr Q := .empty

structure Write (Q : Type) where
  /-- The text before the target. -/
  start : String
  target : FromItem Q
  /-- What stands between the target and FROM. -/
  change : Expr Q
  source : Option (FromItem Q) := none
  trailer : Expr Q := .empty

inductive Body (Q : Type) where
  | select (s : Select Q)
  | query (q : Q)
  /-- Two bodies joined by `UNION`, `EXCEPT` or `INTERSECT` with its quantifier. -/
  | setOp (word : String) (left right : Body Q)
  | values (rows : List (List (Expr Q))) (explicitRow : Bool)
  | table (name : String)
  | write (w : Write Q)

structure OrderItem (Q : Type) where
  expr : Expr Q
  ascending : Option Bool := none
  nullsFirst : Option Bool := none

structure Cte (Q : Type) where
  name : Ident
  columns : List Ident := []
  materialized : Option Bool := none
  query : Q
  origin : Option Ident := none

/-- A query. An empty list of entries is a query without WITH. -/
structure Query where
  recursive : Bool := false
  ctes : List (Cte Query) := []
  body : Body Query
  orderBy : List (OrderItem Query) := []
  limit : Option (Expr Query) := none
  /-- What stands after LIMIT: OFFSET, FETCH, locks. -/
  trailer : Expr Query := .empty

/-- A statement: a query, or anything else as text. -/
inductive Statement where
  | query (q : Query)
  | command (text : String)

section Queries

variable {Q : Type}

def SelectItem.queries : SelectItem Q → List Q
  | .wildcard options => options.queries
  | .qualifiedWildcard _ options => options.queries
  | .expr e => e.queries
  | .aliased e _ => e.queries

def GroupBy.queries : GroupBy Q → List Q
  | .all _ => []
  | .exprs items _ => items.flatMap Expr.queries

def queriesOf (e : Option (Expr Q)) : List Q :=
  match e with
  | none => []
  | some e => e.queries

def Select.queries (s : Select Q) : List Q :=
  s.quantifier.queries ++ s.items.flatMap SelectItem.queries ++ s.source.flatMap FromItem.queries ++
    s.views.queries ++ queriesOf s.filter ++ s.groupBy.queries ++ s.distribution.queries ++
    queriesOf s.having ++ s.windows.queries ++ queriesOf s.qualify ++ s.trailer.queries

def Write.queries (w : Write Q) : List Q :=
  w.target.queries ++ w.change.queries ++ w.source.toList.flatMap FromItem.queries ++
    w.trailer.queries

def Body.queries : Body Q → List Q
  | .select s => s.queries
  | .query q => [q]
  | .setOp _ left right => left.queries ++ right.queries
  | .values rows _ => rows.flatMap fun row => row.flatMap Expr.queries
  | .table _ => []
  | .write w => w.queries

end Queries

def Query.queries (q : Query) : List Query :=
  q.ctes.map Cte.query ++ q.body.queries ++ q.orderBy.flatMap (fun item => item.expr.queries) ++
    queriesOf q.limit ++ q.trailer.queries

section Walks

variable {Q R : Type} {m : Type → Type} [Monad m]

def SelectItem.walk (w : Expr.Walk m Q R) : SelectItem Q → m (SelectItem R)
  | .wildcard options => do return .wildcard (← options.walk w)
  | .qualifiedWildcard name options => do return .qualifiedWildcard name (← options.walk w)
  | .expr e => do return .expr (← e.walk w)
  | .aliased e label => do return .aliased (← e.walk w) label

def GroupBy.walk (w : Expr.Walk m Q R) : GroupBy Q → m (GroupBy R)
  | .all modifiers => pure (.all modifiers)
  | .exprs items modifiers => do return .exprs (← Expr.walk.walkAll w items) modifiers

def walkOption (w : Expr.Walk m Q R) : Option (Expr Q) → m (Option (Expr R))
  | none => pure none
  | some e => do return some (← e.walk w)

def OrderItem.walk (w : Expr.Walk m Q R) (item : OrderItem Q) : m (OrderItem R) := do
  let expr ← item.expr.walk w
  return { expr, ascending := item.ascending, nullsFirst := item.nullsFirst }

/-- Walks a whole SELECT, in the order it is written. -/
def Select.walk (w : Expr.Walk m Q R) (visit : Relation R → m (Relation R)) (s : Select Q) : m (Select R) := do
  let quantifier ← s.quantifier.walk w
  let items ← s.items.mapM (SelectItem.walk w)
  let source ← s.source.mapM (FromItem.walk w visit)
  let views ← s.views.walk w
  let filter ← walkOption w s.filter
  let groupBy ← s.groupBy.walk w
  let distribution ← s.distribution.walk w
  let having ← walkOption w s.having
  let windows ← s.windows.walk w
  let qualify ← walkOption w s.qualify
  let trailer ← s.trailer.walk w
  return { quantifier, items, into := s.into, source, views, filter, groupBy, distribution, having,
           windows, qualify, trailer }

def Write.walk (w : Expr.Walk m Q R) (visit : Relation R → m (Relation R)) (b : Write Q) : m (Write R) := do
  let target ← b.target.walk w visit
  let change ← b.change.walk w
  let source ← match b.source with
    | none => pure none
    | some item => do pure (some (← item.walk w visit))
  let trailer ← b.trailer.walk w
  return { start := b.start, target, change, source, trailer }

def Body.walk (w : Expr.Walk m Q R) (visit : Relation R → m (Relation R)) : Body Q → m (Body R)
  | .select s => do return .select (← s.walk w visit)
  | .query q => do return .query (← w.query q)
  | .setOp word left right => do
    let left ← left.walk w visit
    let right ← right.walk w visit
    return .setOp word left right
  | .values rows explicitRow => do
    return .values (← rows.mapM (Expr.walk.walkAll w)) explicitRow
  | .table name => pure (.table name)
  | .write b => do return .write (← b.walk w visit)

end Walks

/-- Walks one level of a query: WITH, body, ORDER BY, LIMIT and the rest. -/
def Query.walk {m : Type → Type} [Monad m] (w : Expr.Walk m Query Query)
    (visit : Relation Query → m (Relation Query)) (q : Query) : m Query := do
  let ctes ← q.ctes.mapM fun cte => do
    let query ← w.query cte.query
    return { cte with query }
  let body ← q.body.walk w visit
  let orderBy ← q.orderBy.mapM (OrderItem.walk w)
  let limit ← walkOption w q.limit
  let trailer ← q.trailer.walk w
  return { recursive := q.recursive, ctes, body, orderBy, limit, trailer }

end SemanticLayer.Sql
