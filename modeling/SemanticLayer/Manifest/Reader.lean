import SemanticLayer.Json.Reader
import SemanticLayer.Manifest.Writer

/-! # Reading manifests

A record is an object whose unknown members do not count, or an array of its fields in order. A
field that is read twice is an error; one that has a default may be missing. Only optional fields
may be null.
-/

namespace SemanticLayer

namespace Members

/-- The members of a record with fields of given names. -/
def ofJson? (names : List String) : Json → Option Members
  | .object members =>
    if names.any fun n => 1 < (members.filter fun m => m.1 == n).length then none else some members
  | .array items => if items.length ≤ names.length then some (names.zip items) else none
  | _ => none

def text? (ms : Members) (name : String) : Option String := (ms.lookup name).bind Json.asString?

def optional? (ms : Members) (name : String) : Option (Option String) :=
  match ms.lookup name with
  | none | some .null => some none
  | some (.string s) => some (some s)
  | some _ => none

def flag? (ms : Members) (name : String) : Option Bool :=
  match ms.lookup name with
  | none => some false
  | some j => j.asBool?

def list? {α : Type} (ms : Members) (name : String) (read? : Json → Option α) : Option (List α) :=
  match ms.lookup name with
  | none => some []
  | some (.array items) => items.mapM read?
  | some _ => none

def refreshTime? (ms : Members) : Option (Option Duration) := do
  match ← ms.optional? "refreshTime" with
  | none => return none
  | some text =>
    match Duration.parse text with
    | .ok d => return some d
    | .error _ => none

def properties? (ms : Members) : Option Properties :=
  match ms.lookup "properties" with
  | none => some .empty
  | some (.object members) => do
    let pairs ← members.mapM fun m => do return (m.1, ← m.2.asString?)
    return .ofList pairs
  | some _ => none

end Members

/-- The name of an enumeration value: a string, or an object with null under the name. -/
def enumName? : Json → Option String
  | .string s => some s
  | .object [(s, .null)] => some s
  | _ => none

def Column.ofJson? (j : Json) : Option Column := do
  let ms ← Members.ofJson?
    ["name", "type", "relationship", "isCalculated", "notNull", "expression", "description",
     "properties"] j
  return { name := ← ms.text? "name", typeName := ← ms.text? "type",
           relationship := ← ms.optional? "relationship", isCalculated := ← ms.flag? "isCalculated",
           notNull := ← ms.flag? "notNull", expression := ← ms.optional? "expression",
           description := ← ms.optional? "description", properties := ← ms.properties? }

def Model.ofJson? (j : Json) : Option Model := do
  let ms ← Members.ofJson?
    ["name", "refSql", "baseModel", "columns", "primaryKey", "preAggregated", "refreshTime",
     "description"] j
  return { name := ← ms.text? "name", refSql := ← ms.optional? "refSql",
           baseModel := ← ms.optional? "baseModel", columns := ← ms.list? "columns" Column.ofJson?,
           primaryKey := ← ms.optional? "primaryKey", preAggregated := ← ms.flag? "preAggregated",
           refreshTime := ← ms.refreshTime?, description := ← ms.optional? "description" }

def Cardinality.ofJson? (j : Json) : Option Cardinality := do
  match ← enumName? j with
  | "ONE_TO_ONE" => return .oneToOne
  | "ONE_TO_MANY" => return .oneToMany
  | "MANY_TO_ONE" => return .manyToOne
  | "MANY_TO_MANY" => return .manyToMany
  | _ => none

def Relationship.ofJson? (j : Json) : Option Relationship := do
  let ms ← Members.ofJson? ["name", "models", "joinType", "condition"] j
  let models ← (ms.lookup "models").bind Json.asArray?
  return { name := ← ms.text? "name", models := ← models.mapM Json.asString?,
           cardinality := ← (ms.lookup "joinType").bind Cardinality.ofJson?,
           condition := ← ms.text? "condition" }

def TimeUnit.ofJson? (j : Json) : Option TimeUnit := do
  let name ← enumName? j
  TimeUnit.all.find? fun u => u.name == name

def TimeGrain.ofJson? (j : Json) : Option TimeGrain := do
  let ms ← Members.ofJson? ["name", "refColumn", "dateParts"] j
  return { name := ← ms.text? "name", refColumn := ← ms.text? "refColumn",
           dateParts := ← ms.list? "dateParts" TimeUnit.ofJson? }

def Metric.ofJson? (j : Json) : Option Metric := do
  let ms ← Members.ofJson?
    ["name", "baseObject", "dimension", "measure", "timeGrain", "preAggregated", "refreshTime",
     "description"] j
  return { name := ← ms.text? "name", baseObject := ← ms.text? "baseObject",
           dimension := ← ms.list? "dimension" Column.ofJson?,
           measure := ← ms.list? "measure" Column.ofJson?,
           timeGrain := ← ms.list? "timeGrain" TimeGrain.ofJson?,
           preAggregated := ← ms.flag? "preAggregated", refreshTime := ← ms.refreshTime?,
           description := ← ms.optional? "description" }

def Measure.ofJson? (j : Json) : Option Measure := do
  let ms ← Members.ofJson? ["name", "type", "operator", "refColumn"] j
  return { name := ← ms.text? "name", typeName := ← ms.text? "type",
           operator := ← ms.text? "operator", refColumn := ← ms.text? "refColumn" }

def TimeWindow.ofJson? (j : Json) : Option TimeWindow := do
  let ms ← Members.ofJson? ["name", "refColumn", "timeUnit", "start", "end"] j
  return { name := ← ms.text? "name", refColumn := ← ms.text? "refColumn",
           timeUnit := ← (ms.lookup "timeUnit").bind TimeUnit.ofJson?,
           start := ← ms.optional? "start", stop := ← ms.optional? "end" }

def CumulativeMetric.ofJson? (j : Json) : Option CumulativeMetric := do
  let ms ← Members.ofJson?
    ["name", "baseObject", "measure", "window", "preAggregated", "refreshTime", "description"] j
  return { name := ← ms.text? "name", baseObject := ← ms.text? "baseObject",
           measure := ← (ms.lookup "measure").bind Measure.ofJson?,
           window := ← (ms.lookup "window").bind TimeWindow.ofJson?,
           preAggregated := ← ms.flag? "preAggregated", refreshTime := ← ms.refreshTime?,
           description := ← ms.optional? "description" }

def View.ofJson? (j : Json) : Option View := do
  let ms ← Members.ofJson? ["name", "statement", "description", "properties"] j
  return { name := ← ms.text? "name", statement := ← ms.text? "statement",
           description := ← ms.optional? "description", properties := ← ms.properties? }

def EnumValue.ofJson? (j : Json) : Option EnumValue := do
  let ms ← Members.ofJson? ["name", "value"] j
  return { name := ← ms.text? "name", value := ← ms.optional? "value" }

def EnumDefinition.ofJson? (j : Json) : Option EnumDefinition := do
  let ms ← Members.ofJson? ["name", "values"] j
  let values ← (ms.lookup "values").bind Json.asArray?
  return { name := ← ms.text? "name", values := ← values.mapM EnumValue.ofJson? }

namespace Manifest

def ofJson? (j : Json) : Option Manifest := do
  let ms ← Members.ofJson?
    ["catalog", "schema", "models", "relationships", "metrics", "cumulativeMetrics", "views",
     "enums"] j
  return { catalog := ← ms.text? "catalog", schema := ← ms.text? "schema",
           models := ← ms.list? "models" Model.ofJson?,
           relationships := ← ms.list? "relationships" Relationship.ofJson?,
           metrics := ← ms.list? "metrics" Metric.ofJson?,
           cumulativeMetrics := ← ms.list? "cumulativeMetrics" CumulativeMetric.ofJson?,
           views := ← ms.list? "views" View.ofJson?, enums := ← ms.list? "enums" EnumDefinition.ofJson? }

def parse? (text : String) : Option Manifest := (Json.read? text).bind ofJson?

end Manifest

end SemanticLayer
