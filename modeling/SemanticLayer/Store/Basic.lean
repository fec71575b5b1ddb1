import SemanticLayer.Ordered
import SemanticLayer.Store.Value

/-! # The local store

A store is a list of tables. The names of tables and columns are compared without regard to the case of
ASCII letters. Each operation does all it is asked for or nothing.
-/

namespace SemanticLayer

inductive StoreError where
  | cannotOpen
  | tableExists (name : String)
  | reservedName (name : String)
  | noColumns (table : String)
  | duplicateColumn (name : String)
  | wrongCount (expected found : Nat)
  | noSuchTable (name : String)
  | noSuchColumn (name : String)
  | noSuchFunction (name : String)
  | badArgument (function : String)
  | badSyntax
  | unsupported (text : String)
  | notAStatement
  deriving Repr, DecidableEq, BEq

namespace StoreError

def reason : StoreError → String
  | .cannotOpen => "unable to open database file"
  | .tableExists name => "table " ++ name ++ " already exists"
  | .reservedName name => "object name reserved for internal use: " ++ name
  | .noColumns table => "table " ++ table ++ " has no columns"
  | .duplicateColumn name => "duplicate column name: " ++ name
  | .wrongCount expected found =>
    "Wrong number of parameters passed to query. Got " ++ toString found ++ ", needed " ++
      toString expected
  | .noSuchTable name => "no such table: " ++ name
  | .noSuchColumn name => "no such column: " ++ name
  | .noSuchFunction name => "no such function: " ++ name
  | .badArgument function => "invalid argument of " ++ function
  | .badSyntax => "syntax error"
  | .unsupported text => "not supported: " ++ text
  | .notAStatement => "not a statement"

def message (e : StoreError) : String := "SQLite error: " ++ e.reason

end StoreError

structure ColumnInfo where
  name : String
  /-- The declared type, empty if there is none. -/
  typeName : String
  deriving Repr, DecidableEq, BEq

structure Records where
  columns : List ColumnInfo
  rows : List (List Value)
  deriving Repr, DecidableEq

structure Table where
  name : String
  columns : List ColumnInfo
  rows : List (List Cell) := []
  deriving Repr, DecidableEq

structure Store where
  tables : List Table := []
  deriving Repr, DecidableEq, Inhabited

def sameName (a b : String) : Bool := Text.sameAscii a b

namespace Store

def table? (s : Store) (name : String) : Option Table := s.tables.find? (sameName ·.name name)

def repeatedName? : List String → Option String
  | [] => none
  | name :: rest =>
    match rest.find? (sameName name) with
    | some other => some other
    | none => repeatedName? rest

def createEmpty (s : Store) (name : String) (columns : List ColumnInfo) : Except StoreError Store := do
  if (Text.lowerAscii name).startsWith "sqlite_" then throw (.reservedName name)
  if (s.table? name).isSome then throw (.tableExists name)
  if columns.isEmpty then throw (.noColumns name)
  if let some other := repeatedName? (columns.map (·.name)) then throw (.duplicateColumn other)
  return { s with tables := s.tables ++ [{ name, columns }] }

def keepRow (columns : List ColumnInfo) (row : List Value) : Except StoreError (List Cell) :=
  if row.length = columns.length then
    .ok (List.zipWith (fun c v => (Affinity.ofDeclared c.typeName).keep v.toCell) columns row)
  else .error (.wrongCount columns.length row.length)

def fill (rows : List (List Cell)) : List Table → List Table
  | [] => []
  | [t] => [{ t with rows }]
  | t :: rest => t :: fill rows rest

def create (s : Store) (name : String) (columns : List ColumnInfo) (rows : List (List Value)) :
    Except StoreError Store := do
  let declared := columns.map fun c => { c with typeName := (Affinity.ofTypeName c.typeName).render }
  let s ← s.createEmpty name declared
  let cells ← rows.mapM (keepRow declared)
  return { s with tables := fill cells s.tables }

def drop (s : Store) (name : String) : Store :=
  { s with tables := s.tables.filter fun t => !sameName t.name name }

def tableNames (s : Store) : List String := orderedNames (s.tables.map (·.name))

end Store

end SemanticLayer
