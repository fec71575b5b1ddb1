import SemanticLayer.Sql.Grammar.Statement

/-! # From text to trees -/

namespace SemanticLayer.Sql

/-- The statements of an SQL text; nothing if it has a syntax error. -/
def Statement.parseAll? (d : Dialect) (sql : String) : Option (List Statement) := do
  let tokens ← Token.ofText d sql
  let (statements, _) ← Grammar.statements d tokens
  return statements

def Expr.parse? (d : Dialect) (sql : String) : Option (Expr Query) := do
  let tokens ← Token.ofText d sql
  let (e, _) ← (Grammar.grammar d Grammar.maxDepth).expr 0 tokens
  return e

/-- Why a text is not one expression. -/
inductive ExprFault where
  | badSyntax
  | notOne
  deriving Repr, DecidableEq

namespace ExprFault

def message (sql : String) : ExprFault → String
  | .badSyntax => "invalid expression '" ++ sql ++ "': sql parser error"
  | .notOne => "invalid expression '" ++ sql ++ "'"

end ExprFault

/-- The expression of a text, read as the first item of a SELECT. -/
def Expr.parseItem (sql : String) : Except ExprFault (Expr Query) :=
  match Statement.parseAll? .generic ("SELECT " ++ sql) with
  | none => .error .badSyntax
  | some (.query { body := .select { items := .expr e :: _, .. }, .. } :: _) => .ok e
  | some _ => .error .notOne

end SemanticLayer.Sql
