import SemanticLayer.Compile.Metrics

/-! # Reading cache tables

Entries of models, metrics and cumulative metrics are pointed at the local tables that hold their
rows. A query is cached in full if it reads nothing else.
-/

namespace SemanticLayer

open Sql (Query Cte)

/-- The cache table of an object, if it has one. -/
abbrev CacheLookup := TableName → Option String

/-- Whether a body has all dimensions of a metric among its columns. The cache table of a metric has
    one row for all its dimensions, so an entry with fewer cannot read it. -/
def coversDimensions (m : Metric) (body : Query) : Bool :=
  match body.body with
  | .select s => m.dimension.all fun c => (outputNames s.items).contains c.name
  | _ => false

/-- What becomes of an entry: it is kept, it reads a table, or no table was found for it. -/
inductive CacheUse where
  | keep
  | table (name : String)
  | uncached
  deriving Repr, DecidableEq

namespace Context

variable (c : Context) (lookup : CacheLookup)

def cacheUse (cte : Cte Query) : CacheUse :=
  let name := With.nameOf cte
  let found := match lookup (c.layer.qualified name) with
    | some table => .table table
    | none => .uncached
  match c.layer.kind? name with
  | none | some .view => .keep
  | some .model | some .cumulativeMetric => found
  | some .metric =>
    match c.layer.metric? name with
    | some m => if coversDimensions m cte.query then found else .uncached
    | none => .uncached

def readTable (table : String) : Except CompileError Query :=
  readQuery ("SELECT * FROM " ++ Sql.Ident.render { value := table, quote := some '"' })

def useCache (cte : Cte Query) : Except CompileError (Cte Query) := do
  match c.cacheUse lookup cte with
  | .table table => return { cte with query := ← readTable table }
  | .keep | .uncached => return cte

def cacheTables (ctes : List (Cte Query)) : List TableName :=
  ctes.filterMap fun cte =>
    match c.cacheUse lookup cte with
    | .table table => some ⟨c.session.catalog, c.session.schema, table⟩
    | .keep | .uncached => none

def uncachedNames (ctes : List (Cte Query)) : List String :=
  (ctes.filter fun cte => c.cacheUse lookup cte == .uncached).map With.nameOf

/-- Points the entries of a query at cache tables; the result says whether the query now reads cache
    tables only. -/
def compileCached (q : Query) : Except CompileError (Query × Bool) := do
  let tables := c.cacheTables lookup q.ctes
  let uncached := c.uncachedNames lookup q.ctes
  let ctes ← q.ctes.mapM (c.useCache lookup)
  let q := With.prune c.layer { q with ctes }
  let a ← c.analyze q
  return (q, !tables.isEmpty && !uncached.any (With.has q) && a.physicalTables.all tables.contains)

end Context

end SemanticLayer
