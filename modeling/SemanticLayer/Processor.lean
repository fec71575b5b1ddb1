import SemanticLayer.Cache.Step
import SemanticLayer.Store.Select

/-! # Query processor

A query is answered from the cache when everything it needs is there, and by the data source otherwise.
-/

namespace SemanticLayer

inductive ProcessorError where
  | manifest (e : ManifestError)
  | sql (e : SqlError)
  | source (e : SourceError)
  | cache (e : CacheError)
  deriving Repr, DecidableEq

def ProcessorError.message : ProcessorError → String
  | .manifest e => e.message
  | .sql e => e.message
  | .source e => e.message
  | .cache e => e.message

structure Processor where
  layer : Layer
  /-- Where unqualified names are looked up, unless it is the layer. -/
  session : Option Session := none
  backend : Backend

namespace Processor

variable (p : Processor)

def context : Context := ⟨p.session.getD (.ofLayer p.layer), p.layer⟩

/-- The SQL that the data source runs for a query. -/
def sourceSql (sql : String) : Except SqlError String := p.context.compileSql p.backend sql

/-- The answer of the cache, if everything the query needs is there. -/
def cachedAnswer? (cache : Cache) (sql : String) : Option (Except StoreError Records) :=
  match p.context.compileSqlCached .sqlite cache.lookup sql with
  | .ok (some cached) => some (cache.store.query cached [])
  | .ok none | .error _ => none

end Processor

end SemanticLayer
