import SemanticLayer.Sql.Grammar.Basic

/-! # Reading names, aliases and literals -/

namespace SemanticLayer.Sql.Grammar

/-- An identifier; a string stands for a quoted one. -/
def identifier : Parser Ident := do
  match ← next with
  | .word value quote => return ⟨value, quote⟩
  | .quoted .plain content => return ⟨content, some '\''⟩
  | _ => failure

def path : Parser Path := do
  let first ← identifier
  let rest ← many do
    if ← symbol "." then return some (← identifier) else return none
  return first :: rest

def columnList : Parser (List Ident) := parens (list identifier)

def columnList? : Parser (List Ident) := do
  if ← looksAtSymbol "(" then columnList else return []

/-- An alias, with `AS` or with a word that is not reserved here. -/
def label? (reserved : List String) : Parser (Option Ident) := do
  let explicit ← keyword "AS"
  match ← peek with
  | some (.word value quote) =>
    let free := match quote with
      | none => !reserved.contains (Text.upperAscii value)
      | some _ => true
    if explicit || free then
      let _ ← next
      return some ⟨value, quote⟩
    else return none
  | some (.quoted .plain content) =>
    let _ ← next
    return some ⟨content, some '\''⟩
  | _ => if explicit then failure else return none

def tableLabel? : Parser (Option Alias) := do
  match ← label? reservedForTables with
  | none => return none
  | some name => return some ⟨name, ← columnList?⟩

/-- A string, or a word that is no keyword in its place. -/
def stringLiteral (d : Dialect) : Parser String := do
  match ← next with
  | .word value quote => if quote.isNone && isKeyword value then failure else return value
  | .quoted .plain content | .quoted .unicode content => return content
  | .quoted .escaped content => if d == .sqlite then failure else return content
  | _ => failure

def literal (d : Dialect) : Parser Literal := do
  match ← next with
  | .word "" _ => failure
  | .word value none =>
    match Text.upperAscii value with
    | "TRUE" => return .word "true"
    | "FALSE" => return .word "false"
    | "NULL" => return .word "NULL"
    | _ => failure
  | .word value (some '"') => return .quoted (.other "\"" "\"") value
  | .word _ _ => failure
  | .number digits long => return .number digits long
  | .quoted .escaped content => if d == .sqlite then failure else return .quoted .escaped content
  | .quoted kind content => return .quoted kind content
  | .placeholder text => return .word text
  | .symbol s =>
    if s == ":" || s == "@" then
      match ← next with
      | .word value _ => return .word (s ++ value)
      | .number digits false => return .word (s ++ digits)
      | _ => failure
    else failure

def unsigned : Parser Nat := do
  match ← next with
  | .number digits false =>
    let n := Token.digitsValue 10 digits.toList
    if digits.all Char.isDigit && n < Nat.pow 2 64 then return n else failure
  | _ => failure

end SemanticLayer.Sql.Grammar
