import SemanticLayer.Text.Case
import SemanticLayer.Text.Find
import SemanticLayer.Text.Space

/-! # Column types

The types of columns of a source, and how a local table declares a column of each.
-/

namespace SemanticLayer

/-- How a column of a local table is declared. -/
inductive Affinity where
  | integer
  | real
  | numeric
  | text
  | blob
  | untyped
  deriving Repr, DecidableEq, BEq, Inhabited

namespace Affinity

def render : Affinity → String
  | .integer => "INTEGER"
  | .real => "REAL"
  | .numeric => "NUMERIC"
  | .text => "TEXT"
  | .blob => "BLOB"
  | .untyped => ""

end Affinity

inductive PostgresType where
  | smallInt
  | integer
  | bigInt
  | numeric
  | real
  | doublePrecision
  | varchar
  | char
  | text
  | uuid
  | json
  | jsonb
  | timestamp
  | timestampTz
  | date
  | time
  | interval
  | boolean
  | name
  | byteA
  deriving Repr, DecidableEq, BEq

namespace PostgresType

def parse? : String → Option PostgresType
  | "int2" | "smallint" => some .smallInt
  | "int4" | "int" | "integer" => some .integer
  | "int8" | "bigint" => some .bigInt
  | "numeric" | "decimal" => some .numeric
  | "float4" | "real" => some .real
  | "float8" | "double" | "double precision" => some .doublePrecision
  | "varchar" | "character varying" => some .varchar
  | "bpchar" | "char" => some .char
  | "text" => some .text
  | "uuid" => some .uuid
  | "json" => some .json
  | "jsonb" => some .jsonb
  | "timestamp" => some .timestamp
  | "timestamptz" => some .timestampTz
  | "date" => some .date
  | "time" => some .time
  | "interval" => some .interval
  | "bool" | "boolean" => some .boolean
  | "name" => some .name
  | "bytea" => some .byteA
  | _ => none

def unknownMessage (s : String) : String := "Unknown PostgreSQL type: " ++ s

/-- How a local table declares a column of a type. -/
def affinity : PostgresType → Affinity
  | .smallInt | .integer | .bigInt | .boolean => .integer
  | .real | .doublePrecision => .real
  | .numeric => .numeric
  | .byteA => .blob
  | _ => .text

end PostgresType

/-- How a local table declares a column whose source type has a name. Names of PostgreSQL types come
    first; other names are searched for the usual words. -/
def Affinity.ofTypeName (name : String) : Affinity :=
  let lower := Text.lower (Text.trim name)
  let has (word : String) : Bool := Text.occursIn word lower
  if lower.isEmpty then .untyped
  else
    match PostgresType.parse? lower with
    | some type => type.affinity
    | none =>
      if has "int" then .integer
      else if has "char" || has "clob" || has "text" then .text
      else if has "blob" then .blob
      else if has "real" || has "floa" || has "doub" then .real
      else .numeric

end SemanticLayer
