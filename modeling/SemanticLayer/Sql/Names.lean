import SemanticLayer.Sql.Edit

/-! # Names at any depth

The column names and relation names of a tree, nested queries included.
-/

namespace SemanticLayer.Sql

def recordNames : Edit (StateM (List Path)) :=
  { Edit.keep _ with
    ident := fun name => do
      modify (· ++ [[name]])
      return .ident name
    path := fun parts => do
      modify (· ++ [parts])
      return .path parts }

/-- The names in an expression, those in nested queries included. -/
def Expr.deepNames (e : Expr Query) : List Path := ((e.edit recordNames).run []).2

def Body.tableNames {Q : Type} : Body Q → List Path
  | .select s => s.source.flatMap FromItem.tableNames
  | .setOp _ left right => left.tableNames ++ right.tableNames
  | .write w => w.target.tableNames ++ w.source.toList.flatMap FromItem.tableNames
  | .query _ | .values _ _ | .table _ => []

def lastParts (names : List Path) : List String := names.filterMap fun name => name.values.getLast?

def Query.relationsAt : Nat → Query → List String
  | 0, _ => []
  | n + 1, q => lastParts q.body.tableNames ++ q.queries.flatMap (Query.relationsAt n)

/-- The last parts of the relation names anywhere in a query. -/
def Query.relations (q : Query) : List String := q.relationsAt q.height

def Body.relations (b : Body Query) : List String :=
  lastParts b.tableNames ++ b.queries.flatMap Query.relations

end SemanticLayer.Sql
