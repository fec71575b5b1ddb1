import SemanticLayer.Sql.Parse
import SemanticLayer.TimeUnit

/-! # Compile errors

Every way a query can fail to compile is one cause. Causes fall into kinds, and a message opens with
the title of its kind.
-/

namespace SemanticLayer

inductive RollupFault where
  | notAName (text : String)
  | wrongCount (count : Nat)
  | unknownMetric (metric : String)
  | unknownColumn (column metric : String)
  | unknownUnit (text : String)
  | unitNotAllowed (unit : TimeUnit) (grain : String)
  deriving Repr, DecidableEq

namespace RollupFault

def message : RollupFault → String
  | .notAName text => "expected an identifier, found " ++ text
  | .wrongCount count => "expected 3 arguments, found " ++ toString count
  | .unknownMetric metric => "metric " ++ metric ++ " not found"
  | .unknownColumn column metric =>
    "time column " ++ column ++ " not found in metric " ++ metric
  | .unknownUnit text => TimeUnit.unknownMessage text
  | .unitNotAllowed unit grain => unit.name ++ " is not a date part of time grain " ++ grain

end RollupFault

inductive CompileErrorKind where
  | unsupported
  | ambiguous
  | duplicate
  | statement
  | metric
  | model
  | parsing
  deriving Repr, DecidableEq

def CompileErrorKind.title : CompileErrorKind → String
  | .unsupported => "Unsupported SQL construct"
  | .ambiguous => "Ambiguous name"
  | .duplicate => "Duplicate name"
  | .statement => "Invalid statement"
  | .metric => "Invalid metric"
  | .model => "Semantic model error"
  | .parsing => "SQL parsing error"

inductive CompileError where
  /-- Something other than a query is to be analyzed. -/
  | notAnalyzable (statement : String)
  | unsupportedBody (body : String)
  | unsupportedRelation (relation : String)
  | tableFunction (name : String)
  | tooManyDots (name : String)
  /-- A relationship leads back to the model it starts from. -/
  | selfRelationship (relationship model : String)
  | ambiguousName (name : String)
  | duplicateWith (name : String)
  /-- A metric is read both directly and rolled up. -/
  | rolledUpAndRead (metric : String)
  | notAQuery (sql : String)
  | ownBaseModel (model : String)
  | modelNotFound (model : String)
  | modelWithoutSource (model : String)
  | viewNotFound (view : String)
  | viewCycle (path : List String)
  | notARelationship (column : String)
  | relationshipNotFound (relationship : String)
  | ownerNotInScope (owner label : String)
  | manyDereferences (name : String)
  | columnNotFound (column model : String)
  | noPrimaryKey (column model : String)
  | rollup (fault : RollupFault)
  /-- The expressions of rolled-up metrics bring in ever more roll-ups. -/
  | endlessRollups
  | metricNotFound (metric : String)
  | cumulativeMetricNotFound (metric : String)
  | ownBaseObject (metric : String)
  | badBaseObject (base owner : String)
  | badOperator (operator metric : String)
  | badCondition (condition : String) (fault : Sql.ExprFault)
  | badSql (sql : String)
  deriving Repr, DecidableEq

namespace CompileError

def kind : CompileError → CompileErrorKind
  | .notAnalyzable _ | .unsupportedBody _ | .unsupportedRelation _ | .tableFunction _
  | .tooManyDots _ | .selfRelationship _ _ => .unsupported
  | .ambiguousName _ => .ambiguous
  | .duplicateWith _ | .rolledUpAndRead _ => .duplicate
  | .notAQuery _ | .ownBaseModel _ | .modelNotFound _ | .modelWithoutSource _ | .viewNotFound _
  | .viewCycle _ | .notARelationship _ | .relationshipNotFound _ | .ownerNotInScope _ _
  | .manyDereferences _ | .columnNotFound _ _ | .noPrimaryKey _ _ => .statement
  | .rollup _ | .endlessRollups | .metricNotFound _ | .cumulativeMetricNotFound _ | .ownBaseObject _
  | .badBaseObject _ _ | .badOperator _ _ => .metric
  | .badCondition _ _ => .model
  | .badSql _ => .parsing

def reason : CompileError → String
  | .notAnalyzable statement => "only queries can be analyzed: " ++ statement
  | .unsupportedBody body => "unsupported query body: " ++ body
  | .unsupportedRelation relation => "unsupported relation: " ++ relation
  | .tableFunction name => "table function " ++ name ++ " is not supported"
  | .tooManyDots name => "too many dots in table name: " ++ name
  | .selfRelationship relationship model =>
    "relationship " ++ relationship ++ " joins " ++ model ++ " to itself"
  | .ambiguousName name => name
  | .duplicateWith name => "WITH query name " ++ name ++ " specified more than once"
  | .rolledUpAndRead metric =>
    "metric " ++ metric ++ " is referenced both directly and in roll_up"
  | .notAQuery sql => "expected a query: " ++ sql
  | .ownBaseModel model => "model " ++ model ++ " is its own base model"
  | .modelNotFound model => "model " ++ model ++ " not found"
  | .modelWithoutSource model => "model " ++ model ++ " has neither refSql nor baseModel"
  | .viewNotFound view => "view " ++ view ++ " not found"
  | .viewCycle path => "views reference each other in a cycle: " ++ " -> ".intercalate path
  | .notARelationship column => column ++ " is not a relationship column"
  | .relationshipNotFound relationship => "relationship " ++ relationship ++ " not found"
  | .ownerNotInScope owner label =>
    "relation " ++ owner ++ " joined as " ++ label ++ " is not in scope"
  | .manyDereferences name => name ++ " dereferences more than one relationship"
  | .columnNotFound column model => "column " ++ column ++ " not found in model " ++ model
  | .noPrimaryKey column model =>
    "cannot group by relationship " ++ column ++ ": model " ++ model ++ " has no primary key"
  | .rollup fault => "roll_up: " ++ fault.message
  | .endlessRollups => "roll_up brings in roll_up without end"
  | .metricNotFound metric => "metric " ++ metric ++ " not found"
  | .cumulativeMetricNotFound metric => "cumulative metric " ++ metric ++ " not found"
  | .ownBaseObject metric => metric ++ " is its own base object"
  | .badBaseObject base owner =>
    "base object " ++ base ++ " of " ++ owner ++ " is not a model, metric or cumulative metric"
  | .badOperator operator metric =>
    "operator " ++ operator ++ " of " ++ metric ++ " cannot be accumulated"
  | .badCondition condition fault => fault.message condition
  | .badSql sql => sql ++ ": sql parser error"

def message (e : CompileError) : String := e.kind.title ++ ": " ++ e.reason

end CompileError

end SemanticLayer
