import SemanticLayer.Manifest.Basic
import SemanticLayer.Sql.Names
import SemanticLayer.Sql.Parse
import SemanticLayer.Text.Shown

/-! # Semantic layers

A layer is a manifest whose objects have distinct names and whose models and relationships are sound.
Everything that compiles SQL works over a layer.
-/

namespace SemanticLayer

structure TableName where
  catalog : String
  schema : String
  table : String
  deriving Repr, DecidableEq, BEq, Inhabited

namespace TableName

def render (n : TableName) : String := n.catalog ++ "." ++ n.schema ++ "." ++ n.table

/-- Names are ordered by catalog, schema and table. -/
def le (a b : TableName) : Bool :=
  if a.catalog != b.catalog then a.catalog < b.catalog
  else if a.schema != b.schema then a.schema < b.schema
  else a.table ≤ b.table

end TableName

inductive ObjectKind where
  | model
  | metric
  | cumulativeMetric
  | view
  deriving Repr, DecidableEq, BEq

inductive ManifestError where
  | duplicateName (name : String)
  | twoSources (model : String)
  | noSource (model : String)
  | unknownBase (model base : String)
  | unknownKey (model key : String)
  | noExpression (model column : String)
  | relationshipWithExpression (model column : String)
  | unknownRelationship (model column relationship : String)
  | relationshipElsewhere (model column relationship target : String)
  | notTwoModels (relationship : String)
  | sameModel (relationship : String)
  | unknownModel (relationship model : String)
  | badCondition (relationship condition : String) (fault : Sql.ExprFault)
  | otherQualifiers (relationship : String) (expected found : List String)
  deriving Repr, DecidableEq

namespace ManifestError

def ofModel (model reason : String) : String := "Invalid model " ++ model ++ ": " ++ reason

def ofColumn (model column reason : String) : String :=
  "Invalid column " ++ model ++ "." ++ column ++ ": " ++ reason

def ofRelationship (relationship reason : String) : String :=
  "Invalid relationship " ++ relationship ++ ": " ++ reason

def message : ManifestError → String
  | .duplicateName name => "Duplicate object name: " ++ name
  | .twoSources model => ofModel model "refSql and baseModel are mutually exclusive"
  | .noSource model => ofModel model "one of refSql or baseModel is required"
  | .unknownBase model base => ofModel model ("base model " ++ base ++ " not found")
  | .unknownKey model key => ofModel model ("primary key " ++ key ++ " is not a column")
  | .noExpression model column =>
    ofColumn model column "calculated column requires an expression"
  | .relationshipWithExpression model column =>
    ofColumn model column "relationship column cannot carry an expression"
  | .unknownRelationship model column relationship =>
    ofColumn model column ("relationship " ++ relationship ++ " not found")
  | .relationshipElsewhere model column relationship target =>
    ofColumn model column
      ("relationship " ++ relationship ++ " does not join " ++ model ++ " and " ++ target)
  | .notTwoModels relationship => ofRelationship relationship "exactly two models are required"
  | .sameModel relationship => ofRelationship relationship "a model cannot relate to itself"
  | .unknownModel relationship model =>
    ofRelationship relationship ("model " ++ model ++ " not found")
  | .badCondition relationship condition fault =>
    ofRelationship relationship (fault.message condition)
  | .otherQualifiers relationship expected found =>
    ofRelationship relationship
      ("condition must reference exactly " ++ Text.shownSet expected ++ ", found " ++
        Text.shownSet found)

end ManifestError

def qualifiersOf (names : List Sql.Path) : List String :=
  names.filterMap fun name =>
    match name.reverse with
    | _ :: qualifier :: _ => some qualifier.value
    | _ => none

namespace Manifest

def model? (m : Manifest) (name : String) : Option Model := m.models.find? (·.name == name)

def metric? (m : Manifest) (name : String) : Option Metric := m.metrics.find? (·.name == name)

def cumulativeMetric? (m : Manifest) (name : String) : Option CumulativeMetric :=
  m.cumulativeMetrics.find? (·.name == name)

def view? (m : Manifest) (name : String) : Option View := m.views.find? (·.name == name)

/-- The relationship of a name; of several the last one counts. -/
def relationship? (m : Manifest) (name : String) : Option Relationship :=
  m.relationships.reverse.find? (·.name == name)

/-- The first name that occurs a second time. -/
def repeated? (seen : List String) : List String → Option String
  | [] => none
  | name :: rest => if seen.contains name then some name else repeated? (name :: seen) rest

def checkColumn (m : Manifest) (model : Model) (c : Column) : Except ManifestError Unit := do
  if c.isCalculated && c.expression.isNone then throw (.noExpression model.name c.name)
  match c.relationship with
  | none => return ()
  | some name =>
    if c.expression.isSome then throw (.relationshipWithExpression model.name c.name)
    match m.relationship? name with
    | none => throw (.unknownRelationship model.name c.name name)
    | some r =>
      if !r.models.contains model.name || !r.models.contains c.typeName then
        throw (.relationshipElsewhere model.name c.name r.name c.typeName)

def checkModel (m : Manifest) (model : Model) : Except ManifestError Unit := do
  match model.refSql, model.baseModel with
  | some _, some _ => throw (.twoSources model.name)
  | none, none => throw (.noSource model.name)
  | none, some base => if (m.model? base).isNone then throw (.unknownBase model.name base)
  | some _, none => pure ()
  match model.primaryKey with
  | some key => if (model.column? key).isNone then throw (.unknownKey model.name key)
  | none => pure ()
  model.columns.forM (m.checkColumn model)

/-- Checks a relationship: two models, and a condition over exactly these. -/
def checkRelationship (m : Manifest) (r : Relationship) : Except ManifestError Unit := do
  match r.models with
  | [first, second] =>
    if first == second then throw (.sameModel r.name)
    if (m.model? first).isNone then throw (.unknownModel r.name first)
    if (m.model? second).isNone then throw (.unknownModel r.name second)
    match Sql.Expr.parseItem r.condition with
    | .error fault => throw (.badCondition r.name r.condition fault)
    | .ok condition =>
      let found := qualifiersOf condition.deepNames
      if !(r.models.all found.contains && found.all r.models.contains) then
        throw (.otherQualifiers r.name r.models found)
  | _ => throw (.notTwoModels r.name)

def check (m : Manifest) : Except ManifestError Unit := do
  match repeated? [] m.objectNames with
  | some name => throw (.duplicateName name)
  | none => pure ()
  m.models.forM m.checkModel
  m.relationships.forM m.checkRelationship

end Manifest

structure Layer where
  manifest : Manifest
  checked : manifest.check = .ok ()

namespace Layer

def ofManifest (m : Manifest) : Except ManifestError Layer :=
  match h : m.check with
  | .ok () => .ok ⟨m, h⟩
  | .error e => .error e

def catalog (l : Layer) : String := l.manifest.catalog

def schema (l : Layer) : String := l.manifest.schema

def model? (l : Layer) (name : String) : Option Model := l.manifest.model? name

def metric? (l : Layer) (name : String) : Option Metric := l.manifest.metric? name

def cumulativeMetric? (l : Layer) (name : String) : Option CumulativeMetric :=
  l.manifest.cumulativeMetric? name

def view? (l : Layer) (name : String) : Option View := l.manifest.view? name

def relationship? (l : Layer) (name : String) : Option Relationship := l.manifest.relationship? name

/-- Names listed by models. -/
abbrev NameIndex := List (String × List String)

/-- Lists a name under a model, unless it is there. -/
def NameIndex.note (name model : String) : NameIndex → NameIndex
  | [] => [(model, [name])]
  | (key, names) :: rest =>
    if key == model then (key, if names.contains name then names else names ++ [name]) :: rest
    else (key, names) :: note name model rest

def NameIndex.names (index : NameIndex) (model : String) : List String := (index.lookup model).getD []

/-- The names of the relationships of each model. -/
def relationshipsByModel (relationships : List Relationship) : NameIndex :=
  relationships.foldl (fun index r => r.models.foldl (fun index model => index.note r.name model) index) []

/-- The relationships a model takes part in, in the order their names are first declared. -/
def relationshipsOf (l : Layer) (model : String) : List Relationship :=
  ((relationshipsByModel l.manifest.relationships).names model).filterMap l.relationship?

def kind? (l : Layer) (name : String) : Option ObjectKind :=
  if (l.model? name).isSome then some .model
  else if (l.metric? name).isSome then some .metric
  else if (l.cumulativeMetric? name).isSome then some .cumulativeMetric
  else if (l.view? name).isSome then some .view
  else none

def owns (l : Layer) (name : TableName) : Bool :=
  name.catalog == l.catalog && name.schema == l.schema

def qualified (l : Layer) (name : String) : TableName := ⟨l.catalog, l.schema, name⟩

/-- The models, metrics and cumulative metrics to be kept in the cache. -/
def preAggregated (l : Layer) : List TableName :=
  let m := l.manifest
  ((m.models.filter (·.preAggregated)).map (·.name) ++
    (m.metrics.filter (·.preAggregated)).map (·.name) ++
    (m.cumulativeMetrics.filter (·.preAggregated)).map (·.name)).map l.qualified

def refreshTime? (l : Layer) (name : String) : Option Duration :=
  match l.model? name with
  | some m => m.refreshTime
  | none =>
    match l.metric? name with
    | some m => m.refreshTime
    | none => (l.cumulativeMetric? name).bind (·.refreshTime)

end Layer

end SemanticLayer
