import SemanticLayer.Sql.Height

/-! # Edits

An edit is one change made everywhere in a tree, nested queries included.
-/

namespace SemanticLayer.Sql

structure Edit (m : Type → Type) where
  /-- A bare name. -/
  ident : Ident → m (Expr Query)
  path : Path → m (Expr Query)
  /-- The name of a function. -/
  call : Path → Path
  relation : Relation Query → m (Relation Query)

namespace Edit

variable {m : Type → Type} [Monad m]

def keep (m : Type → Type) [Monad m] : Edit m where
  ident name := pure (.ident name)
  path parts := pure (.path parts)
  call name := name
  relation r := pure r

def walk (e : Edit m) (nested : Query → m Query) : Expr.Walk m Query Query where
  ident := e.ident
  path := e.path
  call := e.call
  query := nested

end Edit

variable {m : Type → Type} [Monad m]

def Query.editAt (e : Edit m) : Nat → Query → m Query
  | 0, q => pure q
  | n + 1, q => q.walk (e.walk (Query.editAt e n)) e.relation

def Query.edit (e : Edit m) (q : Query) : m Query := q.editAt e q.height

def Expr.edit (e : Edit m) (x : Expr Query) : m (Expr Query) := x.walk (e.walk (Query.edit e))

end SemanticLayer.Sql
