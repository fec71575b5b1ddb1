import SemanticLayer.Compile.Error
import SemanticLayer.Layer

/-! # Sessions

A session gives the catalog and schema of names that do not say theirs.
-/

namespace SemanticLayer

/-- The catalog and schema of unqualified names. -/
structure Session where
  catalog : String
  schema : String
  deriving Repr, DecidableEq

namespace Session

def ofLayer (l : Layer) : Session := ⟨l.catalog, l.schema⟩

def tableName (s : Session) (name : Sql.Path) : Except CompileError TableName :=
  match name.values with
  | [table] => .ok ⟨s.catalog, s.schema, table⟩
  | [schema, table] => .ok ⟨s.catalog, schema, table⟩
  | [catalog, schema, table] => .ok ⟨catalog, schema, table⟩
  | _ => .error (.tooManyDots name.render)

end Session

end SemanticLayer
