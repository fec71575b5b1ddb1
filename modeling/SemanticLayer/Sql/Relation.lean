import SemanticLayer.Sql.Expr

/-! # Relations

What stands in a FROM clause: tables, table functions, derived tables and joins in parentheses.
-/

namespace SemanticLayer.Sql

inductive JoinKind (Q : Type) where
  /-- A join with a constraint; the text stands before `JOIN`. -/
  | plain (word : String)
  | cross
  | crossApply
  | outerApply
  | asOf (condition : Expr Q)

inductive JoinConstraint (Q : Type) where
  | condition (expr : Expr Q)
  | columns (names : List Ident)
  | natural
  | none

mutual

inductive Relation (Q : Type) where
  /-- A table, or a table function if there are arguments. -/
  | table (name : Path) (args : Option (List (Expr Q))) (ordinality : Bool) (label : Option Alias)
      (hints : Expr Q)
  | derived (lateral : Bool) (query : Q) (label : Option Alias)
  /-- A join in parentheses. -/
  | nested (first : Relation Q) (joins : List (Join Q)) (label : Option Alias)
  | unnest (arrays : List (Expr Q)) (suffix : String)
  /-- A relation turned by `PIVOT` or `UNPIVOT`. -/
  | pivot (source : Relation Q) (turn : Expr Q)
  | other (construct : Expr Q)

inductive Join (Q : Type) where
  | mk (isGlobal : Bool) (kind : JoinKind Q) (relation : Relation Q) (constraint : JoinConstraint Q)

end

/-- One item of a FROM clause: a relation and what is joined to it. -/
structure FromItem (Q : Type) where
  first : Relation Q
  joins : List (Join Q)

variable {Q R : Type} {m : Type → Type} [Monad m]

def JoinKind.walk (w : Expr.Walk m Q R) : JoinKind Q → m (JoinKind R)
  | .plain word => pure (.plain word)
  | .cross => pure .cross
  | .crossApply => pure .crossApply
  | .outerApply => pure .outerApply
  | .asOf condition => do return .asOf (← condition.walk w)

def JoinConstraint.walk (w : Expr.Walk m Q R) : JoinConstraint Q → m (JoinConstraint R)
  | .condition expr => do return .condition (← expr.walk w)
  | .columns names => pure (.columns names)
  | .natural => pure .natural
  | .none => pure .none

mutual

/-- Walks a relation. `visit` sees every relation after its parts. -/
def Relation.walk (w : Expr.Walk m Q R) (visit : Relation R → m (Relation R)) : Relation Q → m (Relation R)
  | .table name args ordinality label hints => do
    let args ← match args with
      | none => pure none
      | some args => do pure (some (← Expr.walk.walkAll w args))
    let hints ← hints.walk w
    visit (.table name args ordinality label hints)
  | .derived lateral query label => do
    let query ← w.query query
    visit (.derived lateral query label)
  | .nested first joins label => do
    let first ← first.walk w visit
    let joins ← Join.walkAll w visit joins
    visit (.nested first joins label)
  | .unnest arrays suffix => do
    let arrays ← Expr.walk.walkAll w arrays
    visit (.unnest arrays suffix)
  | .pivot source turn => do
    let source ← source.walk w visit
    let turn ← turn.walk w
    visit (.pivot source turn)
  | .other construct => do
    let construct ← construct.walk w
    visit (.other construct)

def Join.walk (w : Expr.Walk m Q R) (visit : Relation R → m (Relation R)) : Join Q → m (Join R)
  | .mk isGlobal kind relation constraint => do
    let relation ← relation.walk w visit
    let kind ← kind.walk w
    let constraint ← constraint.walk w
    return .mk isGlobal kind relation constraint

def Join.walkAll (w : Expr.Walk m Q R) (visit : Relation R → m (Relation R)) : List (Join Q) → m (List (Join R))
  | [] => pure []
  | join :: rest => do
    let join ← join.walk w visit
    let rest ← Join.walkAll w visit rest
    return join :: rest

end

def FromItem.walk (w : Expr.Walk m Q R) (visit : Relation R → m (Relation R)) (item : FromItem Q) : m (FromItem R) := do
  let first ← item.first.walk w visit
  let joins ← Join.walkAll w visit item.joins
  return ⟨first, joins⟩

def JoinKind.queries : JoinKind Q → List Q
  | .asOf condition => condition.queries
  | .plain _ | .cross | .crossApply | .outerApply => []

def JoinConstraint.queries : JoinConstraint Q → List Q
  | .condition expr => expr.queries
  | .columns _ | .natural | .none => []

mutual

def Relation.queries : Relation Q → List Q
  | .table _ none _ _ hints => hints.queries
  | .table _ (some args) _ _ hints => Expr.queries.queriesAll args ++ hints.queries
  | .derived _ query _ => [query]
  | .nested first joins _ => first.queries ++ Join.queriesAll joins
  | .unnest arrays _ => Expr.queries.queriesAll arrays
  | .pivot source turn => source.queries ++ turn.queries
  | .other construct => construct.queries

def Join.queries : Join Q → List Q
  | .mk _ kind relation constraint => relation.queries ++ kind.queries ++ constraint.queries

def Join.queriesAll : List (Join Q) → List Q
  | [] => []
  | join :: rest => join.queries ++ Join.queriesAll rest

end

def FromItem.queries (item : FromItem Q) : List Q := item.first.queries ++ Join.queriesAll item.joins

mutual

def Relation.tableNames : Relation Q → List Path
  | .table name _ _ _ _ => [name]
  | .derived _ _ _ => []
  | .nested first joins _ => first.tableNames ++ Join.tableNamesAll joins
  | .unnest _ _ => []
  | .pivot source _ => source.tableNames
  | .other _ => []

def Join.tableNamesAll : List (Join Q) → List Path
  | [] => []
  | .mk _ _ relation _ :: rest => relation.tableNames ++ Join.tableNamesAll rest

end

def FromItem.tableNames (item : FromItem Q) : List Path :=
  item.first.tableNames ++ Join.tableNamesAll item.joins

end SemanticLayer.Sql
