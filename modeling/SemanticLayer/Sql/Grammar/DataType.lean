import SemanticLayer.Sql.Grammar.Name

/-! # Reading data types

A data type is kept as its text.
-/

namespace SemanticLayer.Sql.Grammar

def precision? : Parser String := do
  if ← symbol "(" then
    let n ← unsigned
    need (symbol ")")
    return "(" ++ toString n ++ ")"
  else return ""

def characterLength? : Parser String := do
  if ← symbol "(" then
    if ← keyword "MAX" then
      need (symbol ")")
      return "(MAX)"
    let n ← unsigned
    let unit ← oneOf ["CHARACTERS", "OCTETS"]
    need (symbol ")")
    return "(" ++ toString n ++ spaced (unit.getD "") ++ ")"
  else return ""

def scale? : Parser String := do
  if ← symbol "(" then
    let digits ← unsigned
    let places ← if ← symbol "," then do pure ("," ++ toString (← unsigned)) else pure ""
    need (symbol ")")
    return "(" ++ toString digits ++ places ++ ")"
  else return ""

def timeZone? : Parser String := do
  if ← keyword "WITH" then
    need (keywords ["TIME", "ZONE"])
    return " WITH TIME ZONE"
  else if ← keyword "WITHOUT" then
    need (keywords ["TIME", "ZONE"])
    return " WITHOUT TIME ZONE"
  else return ""

def typeArgument? : Parser (Option String) := do
  match ← peek with
  | some (.word value _) =>
    let _ ← next
    return some value
  | some (.number digits _) =>
    let _ ← next
    return some digits
  | some (.quoted .plain content) =>
    let _ ← next
    return some content
  | _ => return none

def namedType? (word : String) : Option (Parser String) :=
  match word with
  | "BOOLEAN" | "BOOL" | "REAL" | "FLOAT4" | "FLOAT8" | "UUID" | "DATE" | "INTERVAL" | "JSON" | "JSONB"
  | "REGCLASS" | "TEXT" | "BYTEA" | "TRIGGER" | "INT64" | "FLOAT64" => some (pure word)
  | "INT16" => some (pure "Int16")
  | "INT32" => some (pure "Int32")
  | "INT128" => some (pure "Int128")
  | "INT256" => some (pure "Int256")
  | "UINT8" => some (pure "UInt8")
  | "UINT16" => some (pure "UInt16")
  | "UINT32" => some (pure "UInt32")
  | "UINT64" => some (pure "UInt64")
  | "UINT128" => some (pure "UInt128")
  | "UINT256" => some (pure "UInt256")
  | "FLOAT32" => some (pure "Float32")
  | "DATE32" => some (pure "Date32")
  | "FIXEDSTRING" => some do return "FixedString(" ++ toString (← parens unsigned) ++ ")"
  | "DOUBLE" => some do if ← keyword "PRECISION" then return "DOUBLE PRECISION" else return "DOUBLE"
  | "TINYINT" | "INT2" | "SMALLINT" | "MEDIUMINT" | "INT" | "INT4" | "INT8" | "INTEGER" | "BIGINT" => some do
    let length ← precision?
    if ← keyword "UNSIGNED" then return word ++ length ++ " UNSIGNED" else return word ++ length
  | "VARCHAR" | "NVARCHAR" => some do return word ++ (← characterLength?)
  | "CHARACTER" | "CHAR" => some do
    if ← keyword "VARYING" then return word ++ " VARYING" ++ (← characterLength?)
    else if ← keywords ["LARGE", "OBJECT"] then return word ++ " LARGE OBJECT" ++ (← precision?)
    else return word ++ (← characterLength?)
  | "FLOAT" | "CLOB" | "BINARY" | "VARBINARY" | "BLOB" | "BYTES" | "DATETIME" | "STRING" => some do
    return word ++ (← precision?)
  | "TIMESTAMP" | "TIME" => some do
    let places ← precision?
    return word ++ places ++ (← timeZone?)
  | "TIMESTAMPTZ" | "TIMETZ" => some do return word ++ (← precision?)
  | "NUMERIC" | "DECIMAL" | "DEC" | "BIGNUMERIC" | "BIGDECIMAL" => some do return word ++ (← scale?)
  | "ENUM" | "SET" => some do
    let names ← parens (list do
      match ← next with
      | .quoted .plain content => return Text.quoted '\'' content
      | _ => failure)
    return word ++ "(" ++ commas names ++ ")"
  | _ => none

/-- The closing bracket of `<`. Inside another such bracket, half of `>>` closes it. -/
def closeAngle (inner : Bool) : Parser Unit := do
  if ← guarded inner (symbol ">>") then modify (.symbol ">" :: ·) else need (symbol ">")

def typeField (type : Parser (Bool × String)) : Parser String := do
  match ← get with
  | .word _ _ :: .word _ _ :: _ =>
    let name ← identifier
    return name.render ++ " " ++ (← type).2
  | _ => return (← type).2

/-- Types built from others that only the generic dialect has, given how a type is read in angle
    brackets and elsewhere. -/
def builtType? (inner : Bool) (nested plain : Parser (Bool × String)) (word : String) : Option (Parser String) :=
  match word with
  | "STRUCT" => some do
    if ← symbol "<" then
      let fields ← list (typeField nested)
      closeAngle inner
      return "STRUCT<" ++ commas fields ++ ">"
    else return "STRUCT"
  | "UNION" => some do
    let fields ← parens (list do
      let name ← identifier
      return name.render ++ " " ++ (← plain).2)
    return "UNION(" ++ commas fields ++ ")"
  | "NULLABLE" => some do return "Nullable(" ++ (← parens plain).2 ++ ")"
  | "LOWCARDINALITY" => some do return "LowCardinality(" ++ (← parens plain).2 ++ ")"
  | "TUPLE" => some do return "Tuple(" ++ commas (← parens (list (typeField plain))) ++ ")"
  | "MAP" => some do
    need (symbol "(")
    let key ← plain
    need (symbol ",")
    let value ← plain
    need (symbol ")")
    return "Map(" ++ key.2 ++ ", " ++ value.2 ++ ")"
  | _ => none

/-- A data type, and whether it is one of the known ones; `inner` if it stands in angle brackets.
    Types nest at most `n` deep. -/
def dataTypeUpTo (d : Dialect) (inner : Bool) : Nat → Parser (Bool × String)
  | 0 => failure
  | n + 1 => do
    let nested := dataTypeUpTo d true n
    let plain := dataTypeUpTo d false n
    let word ← peek
    let element ← match word.bind Token.bareWord? with
      | some "ARRAY" => do
        let _ ← next
        need (symbol "<")
        let (_, item) ← nested
        closeAngle inner
        pure (true, "ARRAY<" ++ item ++ ">")
      | some "DATETIME64" => do
        let _ ← next
        need (symbol "(")
        let places ← unsigned
        let zone ← if ← symbol "," then do pure (", '" ++ (← stringLiteral d) ++ "'") else pure ""
        need (symbol ")")
        pure (true, "DateTime64(" ++ toString places ++ zone ++ ")")
      | bare =>
        let built := if d == .generic then bare.bind (builtType? inner nested plain) else none
        match built <|> bare.bind namedType? with
        | some known => do
          let _ ← next
          pure (true, ← known)
        | none => do
          let name ← path
          let arguments ← if ← symbol "(" then do
              let items ← many do
                match ← typeArgument? with
                | some item =>
                  let _ ← symbol ","
                  return some item
                | none => return none
              need (symbol ")")
              pure ("(" ++ commas items ++ ")")
            else pure ""
          pure (false, Path.render name ++ arguments)
    let suffixes ← many do
      if ← symbol "[" then
        let size ← if d == .sqlite then pure none else attempt unsigned
        need (symbol "]")
        return some ("[" ++ (size.map toString).getD "" ++ "]")
      else return none
    match suffixes with
    | [] => return element
    | _ => return (true, element.2 ++ String.join suffixes)

def dataType (d : Dialect) : Parser (Bool × String) := do dataTypeUpTo d false ((← get).length + 1)

def structFields? (d : Dialect) : Parser String := do
  if ← symbol "<" then
    let fields ← list (typeField (dataTypeUpTo d true ((← get).length + 1)))
    closeAngle false
    return "<" ++ commas fields ++ ">"
  else return ""

end SemanticLayer.Sql.Grammar
