import SemanticLayer.Compile.Models

/-! # Joining related models

A relationship column leads from a row to rows of another model. Using one adds a LEFT JOIN of that
model to the SELECT that holds the column's relation; a subquery may ask this of the SELECTs around
it. Before that the bare columns of the SELECT are written with their relations, so that the new
columns cannot be meant.
-/

namespace SemanticLayer

open Sql (Ident Path Expr Query Cte Relation Join FromItem SelectItem Select Body OrderItem)

/-- A LEFT JOIN of a related model. -/
structure RelatedJoin where
  /-- What the relation with the relationship column is called. -/
  owner : String
  label : String
  target : String
  condition : Expr Query

namespace RelatedJoin

/-- A dotted name of a join condition in terms of the owner and the joined model. -/
def requalifyPath (model target owner label : String) : Path → Expr Query
  | [qualifier, column] =>
    if qualifier.value == model then .path [.ofName owner, column]
    else if qualifier.value == target then .path [.ofName label, column]
    else .path [qualifier, column]
  | parts => .path parts

def requalify (model target owner label : String) (condition : Expr Query) : Expr Query :=
  Id.run (condition.edit { Sql.Edit.keep Id with path := requalifyPath model target owner label })

def ofField (l : Layer) (f : Field) : Except CompileError RelatedJoin := do
  match f.relationship, f.target with
  | some name, some target =>
    let some r := l.relationship? name | throw (.relationshipNotFound name)
    if f.table.table == target then throw (.selfRelationship r.name f.table.table)
    match Expr.parseItem r.condition with
    | .error fault => throw (.badCondition r.condition fault)
    | .ok condition =>
      let owner := f.qualifier
      let label := owner ++ "_" ++ f.name
      return { owner, label, target
               condition := requalify f.table.table target owner label condition }
  | _, _ => throw (.notARelationship f.name)

def toJoin (j : RelatedJoin) : Join Query :=
  .mk false (.plain "LEFT ") (.table [.ofName j.target] none false (some { name := .ofName j.label }) .empty)
    (.condition j.condition)

end RelatedJoin

def relationName? (r : Relation Query) : Option String :=
  match r with
  | .table _ _ _ (some label) _ | .derived _ _ (some label) | .nested _ _ (some label) =>
    some label.name.value
  | .table name _ _ none _ => name.values.getLast?
  | _ => none

def relationNames (item : FromItem Query) : List String :=
  (item.first :: item.joins.map fun | .mk _ _ relation _ => relation).filterMap relationName?

def appendJoin (join : Join Query) (item : FromItem Query) : FromItem Query :=
  { item with joins := item.joins ++ [join] }

/-- Adds a join to the first FROM item with a property, to the first one if none has it. -/
def appendWhere (p : FromItem Query → Bool) (join : Join Query) (items : List (FromItem Query)) :
    List (FromItem Query) :=
  items.modify ((items.findIdx? p).getD 0) (appendJoin join)

def RelatedJoin.addTo (j : RelatedJoin) (s : Select Query) : Select Query :=
  if s.source.any fun item => (relationNames item).contains j.label then s
  else { s with
    source := appendWhere (fun item => (relationNames item).contains j.owner) j.toJoin s.source }

/-- The clauses of a SELECT that see its FROM clause, with the ORDER BY of its query. -/
structure Clauses where
  select : Select Query
  orderBy : List (OrderItem Query)

namespace Clauses

variable {m : Type → Type} [Monad m]

def walkSelect (w : Expr.Walk m Query Query) (s : Select Query) : m (Select Query) := do
  let items ← s.items.mapM (SelectItem.walk w)
  let filter ← Sql.walkOption w s.filter
  let groupBy ← s.groupBy.walk w
  let having ← Sql.walkOption w s.having
  let qualify ← Sql.walkOption w s.qualify
  return { s with items, filter, groupBy, having, qualify }

def walk (w : Expr.Walk m Query Query) (c : Clauses) : m Clauses := do
  let select ← walkSelect w c.select
  let orderBy ← c.orderBy.mapM (OrderItem.walk w)
  return { select, orderBy }

end Clauses

/-- Writes bare names that mean a field with their relation. Names in `outputs`, and names that the
    nearer scope knows, stay as they are. -/
def qualifyWalk (scope : Scope) (nearer : Option Scope) (outputs : List String) :
    Expr.Walk (Except CompileError) Query Query :=
  { Expr.Walk.keep _ _ with
    ident := fun name => do
      if outputs.contains name.value then return .ident name
      let hidden := match nearer with
        | none => false
        | some nearer => match nearer.resolve [name.value] with
          | .ok none => false
          | _ => true
      if hidden then return .ident name
      match ← scope.resolve [name.value] with
      | some field => return .path [.ofName field.qualifier, name]
      | none => return .ident name }

/-- Writes the first `*` as one wildcard for each relation of the FROM clause. -/
def spreadWildcard (relations : List String) : List (SelectItem Query) → List (SelectItem Query)
  | [] => []
  | .wildcard options :: rest =>
    relations.map (fun name => .qualifiedWildcard [.ofName name] options) ++ rest
  | item :: rest => item :: spreadWildcard relations rest

def aliasNames (items : List (SelectItem Query)) : List String :=
  items.filterMap fun
    | .aliased _ label => some label.value
    | _ => none

namespace Context

variable (c : Context)

/-- Qualifies the names in a body that mean fields of the scope around it, given how this is done in
    nested queries. -/
def qualifyBody (nested : Scope → Query → Except CompileError Query) (outer : Scope) :
    Body Query → Except CompileError (Body Query)
  | .select s => do
    let nearer ← c.sourceScope s []
    let s ← Clauses.walkSelect (qualifyWalk outer (some nearer) []) s
    let inner ← c.sourceScope s outer
    return .select (← Clauses.walkSelect { Expr.Walk.keep _ _ with query := nested inner } s)
  | .query q => return .query (← nested outer q)
  | .setOp word left right => do
    let left ← qualifyBody nested outer left
    let right ← qualifyBody nested outer right
    return .setOp word left right
  | body => return body

/-- Qualifies the names in a query, nested at most `n` deep, that mean fields of the scope around
    it. -/
def qualifyCorrelatedUpTo : Nat → Scope → Query → Except CompileError Query
  | 0, _, q => return q
  | n + 1, outer, q => return { q with body := ← c.qualifyBody (qualifyCorrelatedUpTo n) outer q.body }

def qualifyCorrelated (outer : Scope) (q : Query) : Except CompileError Query :=
  c.qualifyCorrelatedUpTo q.height outer q

/-- Qualifies the bare columns of a SELECT. In ORDER BY the aliases of output columns stay. -/
def qualify (scope : Scope) (clauses : Clauses) : Except CompileError Clauses := do
  let outputs := aliasNames clauses.select.items
  let select ← Clauses.walkSelect (qualifyWalk scope none []) clauses.select
  let orderBy ← clauses.orderBy.mapM (OrderItem.walk (qualifyWalk scope none outputs))
  let select ← Clauses.walkSelect
    { Expr.Walk.keep _ _ with query := c.qualifyCorrelated scope } select
  let items := spreadWildcard (select.source.flatMap relationNames) select.items
  return { select := { select with items }, orderBy }

end Context

/-- Steps of joining; the models joined so far are kept in order. -/
abbrev Joiner := StateT (List String) (Except CompileError)

/-- What one SELECT needs: its clauses with the uses of relationships replaced, and the joins these
    ask for. -/
abbrev JoinFinder := Clauses → Scope → Except CompileError (Clauses × List RelatedJoin)

namespace Context

variable (c : Context) (find : JoinFinder)

section Nested

/- What is done with nested queries: the joins that they leave to the SELECTs around them are part of
the result. -/
variable (nested : Scope → Query → Joiner (Query × List RelatedJoin))

/-- Joins inside a FROM clause. Derived tables do not see the SELECT around them. -/
def joinSource (source : List (FromItem Query)) : Joiner (List (FromItem Query)) :=
  source.mapM (FromItem.walk
    { Expr.Walk.keep _ _ with query := fun q => do return (← nested [] q).1 } pure)

/-- The walk that joins inside nested queries and collects the joins that they leave. -/
def nestedWalk (scope : Scope) : Expr.Walk (StateT (List RelatedJoin) Joiner) Query Query :=
  { Expr.Walk.keep _ _ with
    query := fun q => do
      let (q, escaped) ← nested scope q
      modify (· ++ escaped)
      return q }

def joinNested (scope : Scope) (clauses : Clauses) : Joiner (Clauses × List RelatedJoin) :=
  (clauses.walk (nestedWalk nested scope)).run []

/-- Adds the joins whose owners are relations of the SELECT. -/
def joinOwned (scope : Scope) (joins : List RelatedJoin) (clauses : Clauses) : Joiner Clauses := do
  if joins.isEmpty then return clauses
  let clauses ← c.qualify scope clauses
  modify fun targets => joins.foldl (fun targets j => insertName j.target targets) targets
  return { clauses with select := joins.foldl (fun s j => j.addTo s) clauses.select }

def joinClauses (parent : Scope) (clauses : Clauses) : Joiner (Clauses × List RelatedJoin) := do
  let source ← joinSource nested clauses.select.source
  let clauses := { clauses with select := { clauses.select with source } }
  let scope ← c.sourceScope clauses.select parent
  let (clauses, asked) ← joinNested nested scope clauses
  let (clauses, found) ← find clauses scope
  let (owned, escaped) := (asked ++ found).partition fun j =>
    scope.fields.any fun f => f.qualifier == j.owner
  return (← c.joinOwned scope owned clauses, escaped)

def joinBody (parent : Scope) (orderBy : List (OrderItem Query)) :
    Body Query → Joiner (Body Query × List (OrderItem Query) × List RelatedJoin)
  | .select s => do
    let (clauses, escaped) ← c.joinClauses find nested parent { select := s, orderBy }
    return (.select clauses.select, clauses.orderBy, escaped)
  | .query q => do
    let (q, escaped) ← nested parent q
    return (.query q, orderBy, escaped)
  | .setOp word left right => do
    let (left, _, first) ← joinBody parent [] left
    let (right, _, second) ← joinBody parent [] right
    return (.setOp word left right, orderBy, first ++ second)
  | body => return (body, orderBy, [])

def joinEntry (parent : Scope) (cte : Cte Query) : Joiner (Cte Query × List RelatedJoin) := do
  let (query, escaped) ← nested parent cte.query
  return ({ cte with query }, escaped)

def joinQueryWith (parent : Scope) (q : Query) : Joiner (Query × List RelatedJoin) := do
  let ctes ← q.ctes.mapM (joinEntry nested parent)
  let (body, orderBy, escaped) ← c.joinBody find nested parent q.orderBy q.body
  return ({ q with ctes := ctes.map (·.1), body, orderBy }, ctes.flatMap (·.2) ++ escaped)

end Nested

def joinQueryUpTo : Nat → Scope → Query → Joiner (Query × List RelatedJoin)
  | 0, _, q => return (q, [])
  | n + 1, parent, q => c.joinQueryWith find (joinQueryUpTo n) parent q

def joinQuery (q : Query) : Except CompileError (Query × List String) := do
  let ((q, escaped), targets) ← (c.joinQueryUpTo find q.height [] q).run []
  match escaped with
  | [] => return (q, targets)
  | j :: _ => throw (.ownerNotInScope j.owner j.label)

end Context

end SemanticLayer
