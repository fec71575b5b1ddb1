import SemanticLayer.Duration
import SemanticLayer.Manifest.Properties
import SemanticLayer.TimeUnit

/-! # Manifests

A manifest describes the semantic objects of one catalog and schema: models over physical tables or
over other models, relationships between models, metrics and cumulative metrics over objects, and
views.
-/

namespace SemanticLayer

/-- A column of a model or metric: a plain one, a relationship (whose type names the other model), or
    one with an expression. -/
structure Column where
  name : String
  typeName : String
  relationship : Option String := none
  isCalculated : Bool := false
  notNull : Bool := false
  expression : Option String := none
  description : Option String := none
  properties : Properties := .empty
  deriving Repr, DecidableEq

namespace Column

/-- The SQL of the column's value, if the column is not just read. -/
def sql? (c : Column) : Option String := c.expression.filter (· ≠ c.name)

end Column

/-- A model: rows of a SQL text or of another model. -/
structure Model where
  name : String
  refSql : Option String := none
  baseModel : Option String := none
  columns : List Column := []
  primaryKey : Option String := none
  preAggregated : Bool := false
  refreshTime : Option Duration := none
  description : Option String := none
  deriving Repr, DecidableEq

namespace Model

def column? (m : Model) (name : String) : Option Column := m.columns.find? (·.name == name)

end Model

/-- How many rows of two models belong together. -/
inductive Cardinality where
  | oneToOne
  | oneToMany
  | manyToOne
  | manyToMany
  deriving Repr, DecidableEq

structure Relationship where
  name : String
  models : List String
  cardinality : Cardinality
  condition : String
  deriving Repr, DecidableEq

/-- A column along which a metric may be rolled up. -/
structure TimeGrain where
  name : String
  refColumn : String
  dateParts : List TimeUnit := []
  deriving Repr, DecidableEq

/-- A metric: measures of an object by dimensions. -/
structure Metric where
  name : String
  baseObject : String
  dimension : List Column := []
  measure : List Column := []
  timeGrain : List TimeGrain := []
  preAggregated : Bool := false
  refreshTime : Option Duration := none
  description : Option String := none
  deriving Repr, DecidableEq

namespace Metric

def columns (m : Metric) : List Column := m.dimension ++ m.measure

def timeGrain? (m : Metric) (name : String) : Option TimeGrain := m.timeGrain.find? (·.name == name)

end Metric

/-- What a cumulative metric aggregates. -/
structure Measure where
  name : String
  typeName : String
  operator : String
  refColumn : String
  deriving Repr, DecidableEq

/-- The periods of a cumulative metric. -/
structure TimeWindow where
  name : String
  refColumn : String
  timeUnit : TimeUnit
  start : Option String := none
  stop : Option String := none
  deriving Repr, DecidableEq

/-- A measure that runs along a window of time. -/
structure CumulativeMetric where
  name : String
  baseObject : String
  measure : Measure
  window : TimeWindow
  preAggregated : Bool := false
  refreshTime : Option Duration := none
  description : Option String := none
  deriving Repr, DecidableEq

namespace CumulativeMetric

def columnNames (m : CumulativeMetric) : List String := [m.window.name, m.measure.name]

end CumulativeMetric

structure View where
  name : String
  statement : String
  description : Option String := none
  properties : Properties := .empty
  deriving Repr, DecidableEq

structure EnumValue where
  name : String
  value : Option String := none
  deriving Repr, DecidableEq

structure EnumDefinition where
  name : String
  values : List EnumValue
  deriving Repr, DecidableEq

/-- The semantic objects of one catalog and schema. -/
structure Manifest where
  catalog : String
  schema : String
  models : List Model := []
  relationships : List Relationship := []
  metrics : List Metric := []
  cumulativeMetrics : List CumulativeMetric := []
  views : List View := []
  enums : List EnumDefinition := []
  deriving Repr, DecidableEq

namespace Manifest

/-- The names of all objects, in the order they are declared. -/
def objectNames (m : Manifest) : List String :=
  m.models.map Model.name ++ m.metrics.map Metric.name ++
    m.cumulativeMetrics.map CumulativeMetric.name ++ m.views.map View.name

end Manifest

end SemanticLayer
