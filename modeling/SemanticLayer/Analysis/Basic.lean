import SemanticLayer.Ordered
import SemanticLayer.Rollup
import SemanticLayer.Scope.Basic

/-! # Analyses

What a query reads: its tables by kind, the columns of each, roll-ups, simple conditions, and the
scopes of its queries.
-/

namespace SemanticLayer

/-- A condition `column operator literal` that every row of a query fulfils. -/
structure Predicate where
  table : TableName
  column : String
  operator : Sql.Operator
  value : Sql.Literal
  deriving Repr, DecidableEq

/-- What is known about a query. Sets are kept in order. -/
structure Analysis where
  tables : List TableName := []
  physicalTables : List TableName := []
  models : List String := []
  metrics : List String := []
  cumulativeMetrics : List String := []
  views : List String := []
  reads : List (TableName × String) := []
  rollups : List Rollup := []
  predicates : List Predicate := []
  /-- The text of the ORDER BY items, and whether they ascend. -/
  sort : List (String × Bool) := []
  limit : Option String := none
  /-- The types of output columns by their names. -/
  types : List (String × String) := []
  /-- The scope of each query, in the order the queries are finished. -/
  scopes : List Scope := []
  deriving Repr

namespace Analysis

/-- Tables first, then columns. -/
def readLe (a b : TableName × String) : Bool :=
  if a.1 == b.1 then a.2 ≤ b.2 else a.1.le b.1

def columnsOf (a : Analysis) (table : TableName) : List String :=
  (a.reads.filter (·.1 == table)).map (·.2)

def columns (a : Analysis) : List (TableName × List String) :=
  (a.reads.map (·.1)).eraseDups.map fun table => (table, a.columnsOf table)

def addTable (table : TableName) (a : Analysis) : Analysis :=
  { a with tables := insertOrdered TableName.le table a.tables }

def addPhysical (table : TableName) (a : Analysis) : Analysis :=
  { a.addTable table with physicalTables := insertOrdered TableName.le table a.physicalTables }

def addObject (table : TableName) (kind : ObjectKind) (a : Analysis) : Analysis :=
  let a := a.addTable table
  match kind with
  | .model => { a with models := insertName table.table a.models }
  | .metric => { a with metrics := insertName table.table a.metrics }
  | .cumulativeMetric => { a with cumulativeMetrics := insertName table.table a.cumulativeMetrics }
  | .view => { a with views := insertName table.table a.views }

def addRead (field : Field) (a : Analysis) : Analysis :=
  { a with reads := insertOrdered readLe (field.table, field.column) a.reads }

def addRollup (rollup : Rollup) (a : Analysis) : Analysis := { a with rollups := a.rollups ++ [rollup] }

def addPredicate (predicate : Predicate) (a : Analysis) : Analysis :=
  { a with predicates := a.predicates ++ [predicate] }

def addType (name typeName : String) (a : Analysis) : Analysis :=
  { a with types := insertOrdered (fun x y => x.1 ≤ y.1) (name, typeName)
             (a.types.filter (·.1 != name)) }

def addScope (scope : Scope) (a : Analysis) : Analysis := { a with scopes := a.scopes ++ [scope] }

/-- A metric must not be read both directly and rolled up. -/
def checkRollups (a : Analysis) : Except CompileError Unit :=
  match a.rollups.find? (a.metrics.contains ·.metric.name) with
  | some rollup => .error (.rolledUpAndRead rollup.metric.name)
  | none => .ok ()

end Analysis

end SemanticLayer
