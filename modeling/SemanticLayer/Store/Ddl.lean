import SemanticLayer.Sql.Grammar.Statement
import SemanticLayer.Store.Basic

/-! # Definitions of tables

`CREATE TABLE` with names and types of columns, and `DROP TABLE`.
-/

namespace SemanticLayer

open Sql (Parser Token)
open Sql.Grammar

inductive Definition where
  | create (ifMissing : Bool) (name : String) (columns : List ColumnInfo)
  | drop (ifPresent : Bool) (name : String)
  deriving Repr, DecidableEq

namespace Definition

def constraintWords : List String :=
  ["CONSTRAINT", "PRIMARY", "NOT", "NULL", "UNIQUE", "CHECK", "DEFAULT", "COLLATE", "REFERENCES",
   "GENERATED", "AS"]

/-- The type names that are always written in upper case. -/
def standardTypes : List String := ["ANY", "BLOB", "INT", "INTEGER", "REAL", "TEXT"]

def declaredType (text : String) : String :=
  if standardTypes.contains (Text.upperAscii text) then Text.upperAscii text else text

def typeWord? : Parser (Option String) := do
  match ← get with
  | .word value quote :: rest =>
    if quote.isNone && constraintWords.contains (Text.upperAscii value) then return none
    set rest
    return some value
  | _ => return none

def typeSize : Parser String := do
  if ← looksAtSymbol "(" then
    let sizes ← parens (list do
      match ← next with
      | .number digits _ => return digits
      | _ => failure)
    return "(" ++ ",".intercalate sizes ++ ")"
  else return ""

def skipConstraints : Nat → Parser Unit
  | 0 => return ()
  | n + 1 => do
    match ← get with
    | [] | .symbol "," :: _ | .symbol ")" :: _ => return ()
    | .symbol "(" :: rest =>
      set rest
      let _ ← list (skipConstraints n)
      need (symbol ")")
      skipConstraints n
    | _ :: rest =>
      set rest
      skipConstraints n

def column : Parser ColumnInfo := do
  let name ← identifier
  let words ← many typeWord?
  let size ← typeSize
  skipConstraints (← get).length
  return ⟨name.value, declaredType (" ".intercalate words ++ size)⟩

def reader : Parser Definition := do
  if ← keywords ["CREATE", "TABLE"] then
    let ifMissing ← keywords ["IF", "NOT", "EXISTS"]
    let name ← identifier
    return .create ifMissing name.value (← parens (list column))
  else if ← keywords ["DROP", "TABLE"] then
    let ifPresent ← keywords ["IF", "EXISTS"]
    return .drop ifPresent (← identifier).value
  else failure

def run (s : Store) : Definition → Except StoreError Store
  | .create ifMissing name columns =>
    if ifMissing && (s.table? name).isSome then .ok s else s.createEmpty name columns
  | .drop ifPresent name =>
    if !ifPresent && (s.table? name).isNone then .error (.noSuchTable name) else .ok (s.drop name)

end Definition

def splitStatements (tokens : List Token) : List (List Token) :=
  (tokens.splitOn (.symbol ";")).filter (!·.isEmpty)

namespace Store

/-- Carries out definitions, one after the other; those before a failing one stay. -/
def define (s : Store) : List (List Token) → Store × Except StoreError Unit
  | [] => (s, .ok ())
  | tokens :: rest =>
    match Definition.reader tokens with
    | some (d, []) =>
      match d.run s with
      | .ok s => define s rest
      | .error e => (s, .error e)
    | _ => (s, .error .badSyntax)

def execute (s : Store) (sql : String) : Store × Except StoreError Unit :=
  match Token.ofText .sqlite sql with
  | none => (s, .error .badSyntax)
  | some tokens => s.define (splitStatements tokens)

end Store

end SemanticLayer
