import SemanticLayer.Compile.Error
import SemanticLayer.Layer

/-! # Roll-ups

`roll_up(metric, column, unit)` in a FROM clause is a metric by periods of a longer unit of time.
-/

namespace SemanticLayer

/-- A metric rolled up along one of its time grains. -/
structure Rollup where
  metric : Metric
  grain : TimeGrain
  unit : TimeUnit
  deriving Repr, DecidableEq

namespace Rollup

def isName (name : Sql.Path) : Bool :=
  match name with
  | [part] => part.value.map Char.toLower == "roll_up"
  | _ => false

/-- The name given as an argument; of a dotted one the last part. -/
def argument (e : Sql.Expr Sql.Query) : Except RollupFault String :=
  match e with
  | .ident name => .ok name.value
  | .path parts => .ok (parts.values.getLast?.getD "")
  | e => .error (.notAName e.render)

def ofArguments (l : Layer) (args : List (Sql.Expr Sql.Query)) : Except RollupFault Rollup := do
  match ← args.mapM argument with
  | [metricName, column, unitName] =>
    let some metric := l.metric? metricName | throw (.unknownMetric metricName)
    let some grain := metric.timeGrain? column | throw (.unknownColumn column metricName)
    let some unit := TimeUnit.parse? unitName | throw (.unknownUnit unitName)
    if !grain.dateParts.isEmpty && !grain.dateParts.contains unit then
      throw (.unitNotAllowed unit grain.name)
    return ⟨metric, grain, unit⟩
  | names => throw (.wrongCount names.length)

def resolve (l : Layer) (args : List (Sql.Expr Sql.Query)) : Except CompileError Rollup :=
  (ofArguments l args).mapError .rollup

end Rollup

end SemanticLayer
