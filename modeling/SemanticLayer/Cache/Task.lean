import SemanticLayer.Compile.Basic
import SemanticLayer.Store.Basic

/-! # Tasks

A task is one attempt to copy the rows of an object into a local table.
-/

namespace SemanticLayer

inductive SourceError where
  | query (text : String)
  deriving Repr, DecidableEq

def SourceError.message : SourceError → String
  | .query text => "Query error: " ++ text

inductive CacheError where
  | tooLarge (object : String) (size limit : Nat)
  | notCacheable (key : TableName)
  | store (e : StoreError)
  | source (e : SourceError)
  | sql (e : SqlError)
  deriving Repr, DecidableEq

def CacheError.message : CacheError → String
  | .tooLarge object size limit =>
    object ++ " holds " ++ toString size ++ " bytes, over the " ++ toString limit ++
      " byte limit for one cached table"
  | .notCacheable key => key.render ++ " is not a model, metric or cumulative metric of the manifest"
  | .store e => e.message
  | .source e => e.message
  | .sql e => e.message

inductive TaskStatus where
  | queued
  | running
  | done
  | failed
  deriving Repr, DecidableEq

namespace TaskStatus

def render : TaskStatus → String
  | .queued => "QUEUED"
  | .running => "RUNNING"
  | .done => "DONE"
  | .failed => "FAILED"

def isFinal : TaskStatus → Bool
  | .done | .failed => true
  | .queued | .running => false

end TaskStatus

/-- The latest task of an object. Times are nanoseconds of the cache's clock. -/
structure Task where
  id : Nat
  key : TableName
  status : TaskStatus := .queued
  started : Option Nat := none
  ended : Option Nat := none
  table : Option String := none
  error : Option String := none
  deriving Repr, DecidableEq

namespace Task

def start (now : Nat) (table : String) (t : Task) : Task :=
  { t with status := .running, started := some now, table := some table }

def finish (now : Nat) (t : Task) : Task := { t with status := .done, ended := some now }

def fail (now : Nat) (message : String) (t : Task) : Task :=
  { t with status := .failed, ended := some now, error := some message }

def hexId (id : Nat) : String :=
  let ds := Nat.toDigits 16 id
  String.ofList (List.replicate (32 - ds.length) '0' ++ ds)

/-- The table that a task of an object writes to. -/
def tableName (key : TableName) (id : Nat) : String := key.table ++ "_" ++ hexId id

def failure (key : TableName) (e : CacheError) : String :=
  "Failed to do cache for cacheInfo " ++ key.render ++ ": " ++ e.message

end Task

end SemanticLayer
