import SemanticLayer.Compile.Cached
import SemanticLayer.Compile.Functions
import SemanticLayer.Compile.GroupKeys

/-! # Compiling SQL

A query over semantic objects is compiled in four stages, each over the result of the one before:
models and views, relationships, metrics, group keys. Then functions get the names of the backend.
Statements other than queries are refused.
-/

namespace SemanticLayer

open Sql (Query Statement)

inductive Stage where
  | models
  | relationships
  | metrics
  | groupKeys
  deriving Repr, DecidableEq

def Stage.all : List Stage := [.models, .relationships, .metrics, .groupKeys]

def Context.runStage (c : Context) : Stage → Query → Except CompileError Query
  | .models => c.compileModels
  | .relationships => c.compileRelationships
  | .metrics => c.compileMetrics
  | .groupKeys => c.compileGroupKeys

/-- Compiles a query for the data source, with the function names it has. -/
def Context.compile (c : Context) (q : Query) : Except CompileError Query :=
  Stage.all.foldlM (fun q stage => c.runStage stage q) q

inductive SqlError where
  | readOnly
  | badSyntax
  | compile (e : CompileError)
  deriving Repr, DecidableEq

namespace SqlError

def message : SqlError → String
  | .readOnly => "Permission denied: Only read-only SQL statements are allowed"
  | .badSyntax => "SQL parsing error: sql parser error"
  | .compile e => e.message

end SqlError

def joinStatements (texts : List String) : String := ";\n".intercalate texts

namespace Context

variable (c : Context) (b : Backend)

def compileStatement : Statement → Except SqlError String
  | .query q =>
    match c.compile q with
    | .ok q => .ok (b.renameFunctions q).render
    | .error e => .error (.compile e)
  | .command _ => .error .readOnly

def compileSql (sql : String) : Except SqlError String := do
  let some statements := Statement.parseAll? b.dialect sql | throw .badSyntax
  return joinStatements (← statements.mapM (c.compileStatement b))

/-- Compiles a query for the cache; nothing if it needs the data source. -/
def compileQueryCached (lookup : CacheLookup) (q : Query) : Except CompileError (Option Query) := do
  let a ← c.analyze q
  if !a.physicalTables.isEmpty then return none
  let (q, fullyCached) ← c.compileCached lookup (← c.compile q)
  return if fullyCached then some (b.renameFunctions q) else none

def compileAllCached (lookup : CacheLookup) : List Statement → Except SqlError (Option (List String))
  | [] => .ok (some [])
  | .command _ :: _ => .error .readOnly
  | .query q :: rest =>
    match c.compileQueryCached b lookup q with
    | .error e => .error (.compile e)
    | .ok none => .ok none
    | .ok (some q) => (compileAllCached lookup rest).map fun texts => texts.map (q.render :: ·)

/-- Compiles a SQL text for the cache; nothing if some statement needs the data source. -/
def compileSqlCached (lookup : CacheLookup) (sql : String) : Except SqlError (Option String) := do
  let some statements := Statement.parseAll? b.dialect sql | throw .badSyntax
  return (← c.compileAllCached b lookup statements).map joinStatements

end Context

end SemanticLayer
