import SemanticLayer.Compile.Relationships

/-! # Metrics

A metric becomes a WITH entry that aggregates its base object by its dimensions; of these only the
ones a query reads, unless another metric is built on it. A cumulative metric runs its measure along
periods of time. A roll-up becomes a derived table.
-/

namespace SemanticLayer

open Sql (Query Relation quotedName commas)

/-- The column that stands in for the measures if none is read. -/
def countFiller : String := "_count_filler"

def aggregateItem (c : Column) : String :=
  match c.sql? with
  | some e => e ++ " AS " ++ quotedName c.name
  | none => quotedName c.name

def groupByPositions (count : Nat) : String :=
  if count == 0 then ""
  else " GROUP BY " ++ commas ((List.range count).map fun i => toString (i + 1))

namespace Metric

/-- The dimensions that are rendered: those in `required`, all if that leaves none. -/
def dimensionsFor (m : Metric) (required : Option (List String)) : List Column :=
  match required with
  | none => m.dimension
  | some names =>
    match m.dimension.filter fun c => names.contains c.name with
    | [] => m.dimension
    | selected => selected

def measuresFor (m : Metric) (required : Option (List String)) : List Column :=
  match required with
  | none => m.measure
  | some names => m.measure.filter fun c => names.contains c.name

def sql (m : Metric) (required : Option (List String)) : String :=
  let dimensions := m.dimensionsFor required
  let measures := m.measuresFor required
  let filler := if measures.isEmpty then ["COUNT(*) AS " ++ countFiller] else []
  "SELECT " ++ commas ((dimensions ++ measures).map aggregateItem ++ filler) ++ " FROM " ++
    quotedName m.baseObject ++ groupByPositions dimensions.length

end Metric

namespace CumulativeMetric

def running (m : CumulativeMetric) : Except CompileError String :=
  match Text.lower m.measure.operator with
  | "sum" | "count" => .ok "SUM"
  | "min" => .ok "MIN"
  | "max" => .ok "MAX"
  | other => .error (.badOperator other m.name)

def filter (w : TimeWindow) : String :=
  let bound (operator : String) (value : String) : String :=
    quotedName w.refColumn ++ " " ++ operator ++ " '" ++ Text.replace "'" "''" value ++ "'"
  match w.start.toList.map (bound ">=") ++ w.stop.toList.map (bound "<=") with
  | [] => ""
  | bounds => " WHERE " ++ " AND ".intercalate bounds

def periodSql (m : CumulativeMetric) : String :=
  "SELECT DATE_TRUNC('" ++ m.window.timeUnit.truncName ++ "', " ++ quotedName m.window.refColumn ++
    ") AS " ++ quotedName m.window.name ++ ", " ++ m.measure.operator ++ "(" ++
    quotedName m.measure.refColumn ++ ") AS " ++ quotedName m.measure.name ++ " FROM " ++
    quotedName m.baseObject ++ filter m.window ++ " GROUP BY 1"

def sql (m : CumulativeMetric) : Except CompileError String := do
  let aggregate ← m.running
  let period := quotedName m.window.name
  let value := quotedName m.measure.name
  return "SELECT " ++ period ++ ", " ++ aggregate ++ "(" ++ value ++ ") OVER (ORDER BY " ++ period ++
    " ROWS BETWEEN UNBOUNDED PRECEDING AND CURRENT ROW) AS " ++ value ++ " FROM (" ++ m.periodSql ++
    ") AS windows"

end CumulativeMetric

namespace Rollup

def sql (r : Rollup) : String :=
  let dimensions := r.metric.dimension.filter (·.name != r.grain.name)
  let period := "DATE_TRUNC('" ++ r.unit.truncName ++ "', " ++ quotedName r.grain.refColumn ++ ") AS " ++
    quotedName r.grain.name
  "SELECT " ++ commas (period :: (dimensions ++ r.metric.measure).map aggregateItem) ++ " FROM " ++
    quotedName r.metric.baseObject ++ groupByPositions (dimensions.length + 1)

end Rollup

namespace Layer

variable (l : Layer)

def baseObject? (name : String) : Option String :=
  match l.kind? name with
  | some .metric => (l.metric? name).map (·.baseObject)
  | some .cumulativeMetric => (l.cumulativeMetric? name).map (·.baseObject)
  | _ => none

/-- Adds the metrics that a metric is built on, through metrics only; at most `n` are followed. -/
def addBaseMetrics : Nat → Option String → List String → List String
  | 0, _, full => full
  | _ + 1, none, full => full
  | n + 1, some name, full =>
    if l.kind? name != some .metric || full.contains name then full
    else addBaseMetrics n (l.baseObject? name) (name :: full)

def baseMetrics (names : List String) : List String :=
  names.foldl (fun full name =>
    l.addBaseMetrics (l.manifest.metrics.length + 1) (l.baseObject? name) full) []

end Layer

namespace Context

variable (c : Context)

section Base

/- The metrics that are rendered with all their columns. -/
variable (full : List String)

/- How the base object of an owner is added, given the objects that are being added. -/
variable (addBase : List String → String → String → Query → Except CompileError Query)

def enter (visiting : List String) (name : String) : Except CompileError (List String) :=
  if visiting.contains name then .error (.ownBaseObject name) else .ok (name :: visiting)

/-- Adds the entry of a metric and those of what it is built on, unless they are there. -/
def addMetricWith (visiting : List String) (name : String) (required : Option (List String))
    (q : Query) : Except CompileError Query := do
  if With.has q name then return q
  let some m := c.layer.metric? name | throw (.metricNotFound name)
  let visiting ← enter visiting name
  let q ← addBase visiting m.name m.baseObject q
  let body ← readQuery (m.sql (if full.contains name then none else required))
  let (body, targets) ← c.joinRelationships body
  return With.push c.layer name body (← addModels c.layer targets q)

def addCumulativeMetricWith (visiting : List String) (name : String) (q : Query) : Except CompileError Query := do
  if With.has q name then return q
  let some m := c.layer.cumulativeMetric? name | throw (.cumulativeMetricNotFound name)
  let visiting ← enter visiting name
  let q ← addBase visiting m.name m.baseObject q
  return With.push c.layer name (← readQuery (← m.sql)) q

end Base

/-- Adds the base object of an owner; at most `n` base objects are followed. -/
def addBaseUpTo (full : List String) : Nat → List String → String → String → Query → Except CompileError Query
  | 0, _, _, base, _ => .error (.ownBaseObject base)
  | n + 1, visiting, owner, base, q =>
    match c.layer.kind? base with
    | some .model => addModel c.layer base q
    | some .metric => c.addMetricWith full (addBaseUpTo full n) visiting base none q
    | some .cumulativeMetric => c.addCumulativeMetricWith (addBaseUpTo full n) visiting base q
    | _ => .error (.badBaseObject base owner)

def addBase (full : List String) (visiting : List String) (owner base : String) (q : Query) :
    Except CompileError Query :=
  c.addBaseUpTo full (c.layer.manifest.metrics.length + c.layer.manifest.cumulativeMetrics.length + 2)
    visiting owner base q

def addMetric (full : List String) (name : String) (required : Option (List String)) (q : Query) :
    Except CompileError Query :=
  c.addMetricWith full (c.addBase full) [] name required q

def addCumulativeMetric (full : List String) (name : String) (q : Query) : Except CompileError Query :=
  c.addCumulativeMetricWith (c.addBase full) [] name q

/-- Replaces a roll-up by its derived table and notes its metric, given what is done with the new
    query. -/
def replaceRollup (nested : Query → StateT (List Metric) (Except CompileError) Query)
    (r : Relation Query) : StateT (List Metric) (Except CompileError) (Relation Query) := do
  match r with
  | .table name (some args) _ label _ =>
    if !Rollup.isName name then return r
    let rollup ← Rollup.resolve c.layer args
    let query ← readQuery rollup.sql
    modify (· ++ [rollup.metric])
    let query ← nested query
    return .derived false query (some (label.getD { name := .ofName rollup.metric.name }))
  | r => return r

def replaceRollupsUpTo : Nat → Query → StateT (List Metric) (Except CompileError) Query
  | 0, _ => throw .endlessRollups
  | n + 1, q =>
    q.walk { Sql.Expr.Walk.keep _ _ with query := replaceRollupsUpTo n }
      (c.replaceRollup (replaceRollupsUpTo n))

/-- Replaces the roll-ups of a query; their metrics are part of the result. A roll-up brings in the
    expressions of its metric, so the bound allows for one query of each metric. -/
def replaceRollups (q : Query) : Except CompileError (Query × List Metric) :=
  (c.replaceRollupsUpTo (q.height + Sql.Grammar.maxDepth * (c.layer.manifest.metrics.length + 1)) q).run []

/-- Compiles the metrics, cumulative metrics and roll-ups of a query. -/
def compileMetrics (q : Query) : Except CompileError Query := do
  let a ← c.analyze q
  let full := c.layer.baseMetrics
    (a.metrics ++ a.rollups.map (·.metric.name) ++ a.cumulativeMetrics)
  let q ← a.metrics.foldlM
    (fun q name => c.addMetric full name (some (a.columnsOf (c.layer.qualified name))) q) q
  let q ← a.cumulativeMetrics.foldlM (fun q name => c.addCumulativeMetric full name q) q
  let (q, rolledUp) ← c.replaceRollups q
  let q ← rolledUp.foldlM (fun q (m : Metric) => c.addBase full [] m.name m.baseObject q) q
  return With.sort q

end Context

end SemanticLayer
