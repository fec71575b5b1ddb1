import SemanticLayer.Text.Letter

/-! # Dialects

Where the flavours of SQL differ in their words: which characters make a bare name, and which quotes
make a quoted one. The grammar asks `Dialect` wherever else they differ.
-/

namespace SemanticLayer.Sql

/-- A flavour of SQL. Generated SQL is read in the generic one. -/
inductive Dialect where
  | generic
  | postgres
  | sqlite
  deriving Repr, DecidableEq, BEq, Inhabited

namespace Dialect

def startsName (d : Dialect) (c : Char) : Bool :=
  match d with
  | .generic => Text.isLetter c || c == '_' || c == '#' || c == '@'
  | .postgres => Text.isLetter c || c == '_'
  | .sqlite => c.isAlpha || c == '_' || c == '$' || (127 ≤ c.toNat && c.toNat ≤ 65535)

def continuesName (d : Dialect) (c : Char) : Bool :=
  match d with
  | .generic => Text.isLetter c || c.isDigit || c == '@' || c == '$' || c == '#' || c == '_'
  | .postgres => Text.isLetter c || c.isDigit || c == '$' || c == '_'
  | .sqlite => d.startsName c || c.isDigit

/-- The quote that closes a name opened by a character, if that character opens one. -/
def closingQuote (d : Dialect) (c : Char) : Option Char :=
  match d, c with
  | _, '"' => some '"'
  | .generic, '`' => some '`'
  | .sqlite, '`' => some '`'
  | .sqlite, '[' => some ']'
  | _, _ => none

def continuesOperator (d : Dialect) (c : Char) : Bool :=
  d == .postgres && "+-*/<>=~!@#%^&|`?".toList.contains c

end Dialect

end SemanticLayer.Sql
