import SemanticLayer.Ordered
import SemanticLayer.Session
import SemanticLayer.Sql.Quoting

/-! # WITH clauses

Compiling puts every semantic object that a query reads into its WITH clause. Entries of objects stand
before the entries the query brought along, each entry stands behind those it reads, and entries that
nothing reads can be dropped.
-/

namespace SemanticLayer

open Sql (Query Cte)

def readQuery (sql : String) : Except CompileError Query :=
  match Sql.Statement.parseAll? .generic sql with
  | none => .error (.badSql sql)
  | some (.query q :: _) => .ok q
  | some _ => .error (.notAQuery sql)

namespace With

def nameOf (cte : Cte Query) : String := cte.name.value

def names (q : Query) : List String := q.ctes.map nameOf

def has (q : Query) (name : String) : Bool := (names q).contains name

/-- Puts an entry behind the leading entries of objects. -/
def insert (isObject : String → Bool) (cte : Cte Query) (ctes : List (Cte Query)) : List (Cte Query) :=
  ctes.takeWhile (isObject ∘ nameOf) ++ cte :: ctes.dropWhile (isObject ∘ nameOf)

def push (l : Layer) (name : String) (body : Query) (q : Query) : Query :=
  let cte : Cte Query := { name := .ofName name, query := body }
  { q with ctes := insert (fun name => (l.kind? name).isSome) cte q.ctes }

def extract? {α : Type} (p : α → Bool) : List α → Option (α × List α)
  | [] => none
  | a :: rest =>
    if p a then some (a, rest)
    else (extract? p rest).map fun (found, others) => (found, a :: others)

def dependencies (names : List String) (cte : Cte Query) : List String :=
  cte.query.relations.filter fun name => names.contains name && name != nameOf cte

/-- Puts entries in order, given the names of those in front of them and at most `n` steps: always the
    first one whose dependencies are in front, or simply the first one if there is none. -/
def orderFrom (reads : Cte Query → List String) : Nat → List String → List (Cte Query) → List (Cte Query)
  | 0, _, pending => pending
  | n + 1, done, pending =>
    match extract? (fun cte => (reads cte).all done.contains) pending, pending with
    | some (cte, others), _ => cte :: orderFrom reads n (nameOf cte :: done) others
    | none, cte :: others => cte :: orderFrom reads n (nameOf cte :: done) others
    | none, [] => []

/-- Puts the entries in order, each one behind those it reads. A recursive clause stays as it is. -/
def sort (q : Query) : Query :=
  if q.recursive then q
  else { q with ctes := orderFrom (dependencies (names q)) q.ctes.length [] q.ctes }

/-- The names that the query, or an entry other than the one of that name, reads. -/
def mentioned (q : Query) : List String :=
  q.body.relations ++
    q.orderBy.flatMap (fun item => item.expr.queries.flatMap Query.relations) ++
    q.ctes.flatMap fun cte => cte.query.relations.filter (· != nameOf cte)

def pruneOnce (l : Layer) (q : Query) : Query :=
  let found := mentioned q
  { q with ctes := q.ctes.filter fun cte =>
      (l.kind? (nameOf cte)).isNone || found.contains (nameOf cte) }

def pruneUpTo (l : Layer) : Nat → Query → Query
  | 0, q => q
  | n + 1, q =>
    let pruned := pruneOnce l q
    if pruned.ctes.isEmpty then { pruned with recursive := false }
    else if pruned.ctes.length == q.ctes.length then pruned
    else pruneUpTo l n pruned

/-- Drops the entries of objects until every one that is left is read. -/
def prune (l : Layer) (q : Query) : Query := pruneUpTo l (q.ctes.length + 1) q

end With

end SemanticLayer
