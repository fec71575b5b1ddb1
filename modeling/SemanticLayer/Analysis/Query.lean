import SemanticLayer.Analysis.Basic
import SemanticLayer.Session

/-! # Analyzing queries

Every query is visited once, in the scope of the queries around it. WITH comes first, then FROM, the
select list, WHERE, GROUP BY, HAVING, QUALIFY and ORDER BY.
-/

namespace SemanticLayer

open Sql (Expr Query Relation Join FromItem SelectItem GroupBy Select Body Cte)

abbrev Analyzer := StateT Analysis (Except CompileError)

/-- What names are resolved against. -/
structure Context where
  session : Session
  layer : Layer

/-- The name an expression consists of, if it is one. -/
def columnName? (e : Expr Query) : Option DottedName :=
  match e with
  | .ident name => some [name.value]
  | .path parts => some parts.values
  | _ => none

/-- The names a SELECT gives to its columns: aliases, and columns read as they are. -/
def outputNames (items : List (SelectItem Query)) : List String :=
  items.filterMap fun
    | .aliased _ label => some label.value
    | .expr (.ident name) => some name.value
    | .expr (.path parts) => parts.values.getLast?
    | _ => none

def relabeled (label : Option Sql.Alias) (fields : List Field) : List Field :=
  match label with
  | some label => fields.map (Field.relabel label.name.value)
  | none => fields

namespace Context

variable (c : Context)

def objectFields (table : TableName) : ObjectKind → List Field
  | .model => match c.layer.model? table.table with
    | some m => m.columns.map (Field.ofColumn table)
    | none => []
  | .metric => match c.layer.metric? table.table with
    | some m => m.columns.map (Field.ofColumn table)
    | none => []
  | .cumulativeMetric => match c.layer.cumulativeMetric? table.table with
    | some m => [.plain table m.window.name "timestamp", .plain table m.measure.name m.measure.typeName]
    | none => []
  | .view => []

def kind? (table : TableName) : Option ObjectKind :=
  if c.layer.owns table then c.layer.kind? table.table else none

def isWithName (name : Sql.Path) (scope : Scope) : Bool :=
  match name with
  | [part] => scope.isNamed part.value && (c.layer.kind? part.value).isNone
  | _ => false

def visitTable (name : Sql.Path) (scope : Scope) : Analyzer (List Field) := do
  if c.isWithName name scope then return []
  let table ← c.session.tableName name
  match c.kind? table with
  | some kind =>
    modify (Analysis.addObject table kind)
    return c.objectFields table kind
  | none =>
    modify (Analysis.addPhysical table)
    return []

def recordType (e : Expr Query) (output : String) (scope : Scope) : Analyzer Unit := do
  match columnName? e with
  | none => return ()
  | some name =>
    match ← scope.resolve name with
    | some field => modify (Analysis.addType output field.typeName)
    | none => return ()

def comparison? : Expr Query → Expr Query → Option (Expr Query × Sql.Literal)
  | column, .literal value => some (column, value)
  | .literal value, column => some (column, value)
  | _, _ => none

/-- The simple conditions that a true expression implies. -/
def predicatesOf (scope : Scope) : Expr Query → Except CompileError (List Predicate)
  | .binary .and left right => do
    let first ← predicatesOf scope left
    let second ← predicatesOf scope right
    return first ++ second
  | .nested inner => predicatesOf scope inner
  | .binary operator left right => do
    if !operator.isComparison then return []
    match comparison? left right with
    | none => return []
    | some (column, value) =>
      match columnName? column with
      | none => return []
      | some name =>
        match ← scope.resolveReference name with
        | some field =>
          if field.isRelationship then return []
          return [{ table := field.table, column := field.column, operator, value }]
        | none => return []
  | _ => return []

section Nested

/- How nested queries are visited. -/
variable (nested : Query → Scope → Analyzer Scope)

def visitExpr (e : Expr Query) (scope : Scope) : Analyzer Unit := do
  let fields ← scope.fieldsOf e
  fields.forM fun field => modify (Analysis.addRead field)
  e.queries.forM fun query => discard (nested query scope)

mutual

def visitRelation (scope : Scope) : Relation Query → Analyzer (List Field)
  | .table name (some args) _ _ _ => do
    if !Rollup.isName name then throw (.tableFunction name.render)
    let rollup ← Rollup.resolve c.layer args
    modify (Analysis.addRollup rollup)
    return []
  | .table name none _ label _ => return relabeled label (← c.visitTable name scope)
  | .derived _ query _ => do
    discard (nested query scope)
    return []
  | .nested first joins label => do
    let fields ← visitRelation scope first
    return relabeled label (← visitJoins scope fields joins)
  | .unnest arrays _ => do
    arrays.forM fun e => visitExpr nested e ({} :: scope)
    return []
  | .pivot source turn => throw (.unsupportedRelation (Relation.render (.pivot source turn)))
  | .other construct => throw (.unsupportedRelation (Relation.render (.other construct)))

def visitJoins (scope : Scope) (left : List Field) : List (Join Query) → Analyzer (List Field)
  | [] => return left
  | .mk _ _ relation constraint :: rest => do
    let fields := left ++ (← visitRelation scope relation)
    match constraint with
    | .condition e => visitExpr nested e ({ fields } :: scope)
    | _ => pure ()
    visitJoins scope fields rest

end

def visitSource (scope : Scope) : List (FromItem Query) → Analyzer (List Field)
  | [] => return []
  | item :: rest => do
    let first ← c.visitRelation nested scope item.first
    let fields ← c.visitJoins nested scope first item.joins
    return fields ++ (← visitSource scope rest)

def visitItem (source : Scope) : SelectItem Query → Analyzer Unit
  | .wildcard _ => source.fields.forM fun field => modify (Analysis.addRead field)
  | .qualifiedWildcard name _ =>
    (source.fields.filter fun field => field.answersTo (name.values ++ [field.name])).forM fun field =>
      modify (Analysis.addRead field)
  | .expr e => do
    recordType e e.render source
    visitExpr nested e source
  | .aliased e label => do
    recordType e label.value source
    visitExpr nested e source

/-- Whether a group key is an output position, or an output name that means no one column. -/
def skipsKey (outputs : List String) (source : Scope) (e : Expr Query) : Bool :=
  match e with
  | .literal (.number _ _) => true
  | .ident name => outputs.contains name.value && !(source.resolve [name.value]).isOk
  | _ => false

def groupKeys (s : Select Query) (source : Scope) : List (Expr Query) :=
  match s.groupBy with
  | .all _ => []
  | .exprs items _ => items.filter fun e => !skipsKey (outputNames s.items) source e

def visitFilter (filter : Option (Expr Query)) (source : Scope) : Analyzer Unit := do
  match filter with
  | none => return ()
  | some e =>
    visitExpr nested e source
    let predicates ← predicatesOf source e
    predicates.forM fun predicate => modify (Analysis.addPredicate predicate)

/-- Visits a SELECT; the scope of its FROM clause is the result. -/
def visitSelect (s : Select Query) (scope : Scope) : Analyzer Scope := do
  let fields ← c.visitSource nested scope s.source
  let source : Scope := { fields } :: scope
  s.items.forM (visitItem nested source)
  visitFilter nested s.filter source
  (groupKeys s source).forM fun e => visitExpr nested e source
  (s.having.toList ++ s.qualify.toList).forM fun e => visitExpr nested e source
  return source

def visitBody (scope : Scope) : Body Query → Analyzer Scope
  | .select s => c.visitSelect nested s scope
  | .query q => nested q scope
  | .setOp _ left right => do
    discard (visitBody scope left)
    discard (visitBody scope right)
    return {} :: scope
  | .values rows _ => do
    rows.flatten.forM fun e => visitExpr nested e ({} :: scope)
    return {} :: scope
  | .table name => throw (.unsupportedBody (Body.render (.table name)))
  | .write w => throw (.unsupportedBody (Body.render (.write w)))

/-- Visits the entries of a WITH clause, given the names of the earlier ones. An entry sees these,
    and itself if the clause is recursive. -/
def visitCtes (recursive : Bool) (scope : Scope) (earlier : List String) : List (Cte Query) → Analyzer (List String)
  | [] => return earlier
  | cte :: rest => do
    let name := cte.name.value
    if earlier.contains name then throw (.duplicateWith name)
    let named := if recursive then earlier ++ [name] else earlier
    discard (nested cte.query ({ named } :: scope))
    visitCtes recursive scope (earlier ++ [name]) rest

/-- Visits a WITH clause; the scope of the body is the result. -/
def visitWith (q : Query) (scope : Scope) : Analyzer Scope := do
  match q.ctes with
  | [] => return scope
  | ctes => return { named := ← visitCtes nested q.recursive scope [] ctes } :: scope

/-- The output names an ORDER BY item may use instead of a column. -/
def orderNames : Body Query → List String
  | .select s => outputNames s.items
  | _ => []

def isOutputName (outputs : List String) (e : Expr Query) : Bool :=
  match e with
  | .ident name => outputs.contains name.value
  | _ => false

def orderKeys (q : Query) : List (Expr Query) :=
  (q.orderBy.map (·.expr)).filter fun e => !isOutputName (orderNames q.body) e

def visitQueryWith (q : Query) (scope : Scope) : Analyzer Scope := do
  let inner ← visitWith nested q scope
  let body ← c.visitBody nested inner q.body
  (orderKeys q).forM fun e => visitExpr nested e body
  let own : Scope := { fields := body.fields } :: scope
  modify (Analysis.addScope own)
  return own

end Nested

def visitQuery : Nat → Query → Scope → Analyzer Scope
  | 0, _, scope => return {} :: scope
  | n + 1, q, scope => c.visitQueryWith (visitQuery n) q scope

def analyze (q : Query) : Except CompileError Analysis := do
  let (_, a) ← (c.visitQuery q.height q []).run {}
  a.checkRollups
  return { a with
    sort := q.orderBy.map fun item => (item.expr.render, item.ascending.getD true)
    limit := q.limit.map Expr.render }

def analyzeStatement : Sql.Statement → Except CompileError Analysis
  | .query q => c.analyze q
  | .command text => .error (.notAnalyzable text)

def sourceScope (s : Select Query) (scope : Scope) : Except CompileError Scope := do
  let (fields, _) ← (c.visitSource (fun q => c.visitQuery q.height q) scope s.source).run {}
  return { fields } :: scope

end Context

end SemanticLayer
