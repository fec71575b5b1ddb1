import SemanticLayer.Sql.Dialect

/-! # Backends

The databases that compiled SQL runs on: which dialect clients write for them, and what they call
the functions of the PostgreSQL flavour.
-/

namespace SemanticLayer

inductive Backend where
  | postgres
  | sqlite
  deriving Repr, DecidableEq, BEq, Inhabited

namespace Backend

def dialect : Backend → Sql.Dialect
  | .postgres => .postgres
  | .sqlite => .sqlite

def functionName (b : Backend) (name : String) : String :=
  match b, name with
  | .postgres, name => name
  | .sqlite, "char_length" => "length"
  | .sqlite, "character_length" => "length"
  | .sqlite, "strpos" => "instr"
  | .sqlite, "substring" => "substr"
  | .sqlite, name => name

end Backend

end SemanticLayer
