import SemanticLayer.Backend
import SemanticLayer.Sql.Edit
import SemanticLayer.Text.Case

/-! # Function names

Functions are written as the backend calls them.
-/

namespace SemanticLayer

open Sql (Path Query)

namespace Backend

/-- What a backend calls a function of a written name. A name that differs from this only in case
    stays as it is written. -/
def renameFunction (b : Backend) (name : Path) : Path :=
  match name with
  | [part] =>
    let mapped := b.functionName (Text.lower part.value)
    if Text.sameAscii mapped part.value then name else [{ value := mapped }]
  | _ => name

def renameFunctions (b : Backend) (q : Query) : Query :=
  Id.run (q.edit { Sql.Edit.keep Id with call := b.renameFunction })

end Backend

end SemanticLayer
