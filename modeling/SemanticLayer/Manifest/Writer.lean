import SemanticLayer.Json.Printer
import SemanticLayer.Manifest.Basic

/-! # Manifests as JSON

Members come in the order the fields are declared; an optional one that is missing is left out.
-/

namespace SemanticLayer

abbrev Members := List (String × Json)

def optionalMember (name : String) : Option String → Members
  | none => []
  | some s => [(name, .string s)]

def refreshMember : Option Duration → Members
  | none => []
  | some d => [("refreshTime", .string d.render)]

def propertiesMember (p : Properties) : Members :=
  match p.entries with
  | [] => []
  | entries => [("properties", .object (entries.map fun e => (e.1, .string e.2)))]

def Column.toJson (c : Column) : Json :=
  .object ([("name", .string c.name), ("type", .string c.typeName)] ++
    optionalMember "relationship" c.relationship ++
    [("isCalculated", .bool c.isCalculated), ("notNull", .bool c.notNull)] ++
    optionalMember "expression" c.expression ++ optionalMember "description" c.description ++
    propertiesMember c.properties)

def Model.toJson (m : Model) : Json :=
  .object ([("name", .string m.name)] ++ optionalMember "refSql" m.refSql ++
    optionalMember "baseModel" m.baseModel ++ [("columns", .array (m.columns.map Column.toJson))] ++
    optionalMember "primaryKey" m.primaryKey ++ [("preAggregated", .bool m.preAggregated)] ++
    refreshMember m.refreshTime ++ optionalMember "description" m.description)

def Cardinality.name : Cardinality → String
  | .oneToOne => "ONE_TO_ONE"
  | .oneToMany => "ONE_TO_MANY"
  | .manyToOne => "MANY_TO_ONE"
  | .manyToMany => "MANY_TO_MANY"

def Relationship.toJson (r : Relationship) : Json :=
  .object [("name", .string r.name), ("models", .array (r.models.map Json.string)),
    ("joinType", .string r.cardinality.name), ("condition", .string r.condition)]

def TimeGrain.toJson (g : TimeGrain) : Json :=
  .object [("name", .string g.name), ("refColumn", .string g.refColumn),
    ("dateParts", .array (g.dateParts.map fun u => .string u.name))]

def Metric.toJson (m : Metric) : Json :=
  .object ([("name", .string m.name), ("baseObject", .string m.baseObject),
    ("dimension", .array (m.dimension.map Column.toJson)),
    ("measure", .array (m.measure.map Column.toJson)),
    ("timeGrain", .array (m.timeGrain.map TimeGrain.toJson)),
    ("preAggregated", .bool m.preAggregated)] ++
    refreshMember m.refreshTime ++ optionalMember "description" m.description)

def Measure.toJson (m : Measure) : Json :=
  .object [("name", .string m.name), ("type", .string m.typeName), ("operator", .string m.operator),
    ("refColumn", .string m.refColumn)]

def TimeWindow.toJson (w : TimeWindow) : Json :=
  .object ([("name", .string w.name), ("refColumn", .string w.refColumn),
    ("timeUnit", .string w.timeUnit.name)] ++
    optionalMember "start" w.start ++ optionalMember "end" w.stop)

def CumulativeMetric.toJson (m : CumulativeMetric) : Json :=
  .object ([("name", .string m.name), ("baseObject", .string m.baseObject),
    ("measure", m.measure.toJson), ("window", m.window.toJson),
    ("preAggregated", .bool m.preAggregated)] ++
    refreshMember m.refreshTime ++ optionalMember "description" m.description)

def View.toJson (v : View) : Json :=
  .object ([("name", .string v.name), ("statement", .string v.statement)] ++
    optionalMember "description" v.description ++ propertiesMember v.properties)

def EnumValue.toJson (v : EnumValue) : Json :=
  .object ([("name", .string v.name)] ++ optionalMember "value" v.value)

def EnumDefinition.toJson (e : EnumDefinition) : Json :=
  .object [("name", .string e.name), ("values", .array (e.values.map EnumValue.toJson))]

namespace Manifest

def toJson (m : Manifest) : Json :=
  .object [("catalog", .string m.catalog), ("schema", .string m.schema),
    ("models", .array (m.models.map Model.toJson)),
    ("relationships", .array (m.relationships.map Relationship.toJson)),
    ("metrics", .array (m.metrics.map Metric.toJson)),
    ("cumulativeMetrics", .array (m.cumulativeMetrics.map CumulativeMetric.toJson)),
    ("views", .array (m.views.map View.toJson)), ("enums", .array (m.enums.map EnumDefinition.toJson))]

def render (m : Manifest) : String := m.toJson.pretty

end Manifest

end SemanticLayer
