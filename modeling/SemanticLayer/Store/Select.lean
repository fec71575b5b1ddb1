import SemanticLayer.Calendar.Truncate
import SemanticLayer.Sql.Parse
import SemanticLayer.Store.Basic
import SemanticLayer.Store.Compare

/-! # Queries on the local store

The store answers queries over one relation: a selection of its columns, values computed from them or the
number of rows, with a condition, an order and a limit. The relation is a table, a WITH query or a
derived table. All names are resolved before any row is read.
-/

namespace SemanticLayer

open Sql (Expr Query Relation SelectItem Select OrderItem Cte Token)

/-- A column of rows that a query reads. -/
structure RowColumn where
  /-- What the relation is called. -/
  relation : String
  info : ColumnInfo
  affinity : Affinity
  deriving Repr, DecidableEq

/-- Columns that a query reads. The rows can fail to be computed although all names are known. -/
structure Rowset where
  columns : List RowColumn
  rows : Except StoreError (List (List Cell))

/-- A value computed from a row, and what its column is called. -/
structure Computed where
  info : ColumnInfo
  affinity : Affinity := .untyped
  eval : List Cell → Except StoreError Cell

/-- An output column: a value, or the number of rows. -/
inductive Output where
  | value (c : Computed)
  | count (info : ColumnInfo)

namespace Output

def info : Output → ColumnInfo
  | .value c => c.info
  | .count info => info

def affinity : Output → Affinity
  | .value c => c.affinity
  | .count _ => .untyped

def isCount : Output → Bool
  | .count _ => true
  | .value _ => false

end Output

def Comparison.ofOperator? : Sql.Operator → Option Comparison
  | .eq => some .eq
  | .notEq => some .notEq
  | .lt => some .lt
  | .ltEq => some .ltEq
  | .gt => some .gt
  | .gtEq => some .gtEq
  | .and | .other _ => none

def isPlainCall (shape : Sql.Shape) (count : Nat) : Bool :=
  let marks := List.replicate count "?"
  shape.fill marks == "(" ++ Sql.commas marks ++ ")"

def parameter? (params : List Cell) (text : String) : Option Cell :=
  match text.toList with
  | '?' :: digits => do
    let n ← Number.readWord? (String.ofList digits)
    if n = 0 then none else params[n - 1]?
  | _ => none

def literalCell (params : List Cell) : Sql.Literal → Except StoreError Cell
  | .number digits _ =>
    match Cell.numberOf? digits with
    | some c => .ok c
    | none => .error .badSyntax
  | .quoted .plain content => .ok (.text content)
  | .quoted _ _ => .error (.unsupported "literal")
  | .word "NULL" => .ok .null
  | .word "true" => .ok (.int 1)
  | .word "false" => .ok (.int 0)
  | .word text =>
    match parameter? params text with
    | some c => .ok c
    | none => .error (.unsupported text)

def computedOf (text : String) (eval : List Cell → Except StoreError Cell) : Computed :=
  { info := ⟨text, ""⟩, eval }

def columnValue (columns : List RowColumn) (p : RowColumn → Bool) : Option Computed := do
  let i ← columns.findIdx? p
  let c ← columns[i]?
  return { info := c.info, affinity := c.affinity, eval := fun row => .ok (row.getD i .null) }

def lengthOf : Cell → Cell
  | .null => .null
  | c =>
    match c.asText with
    | .text s => .int (s.toList.takeWhile (· != '\x00')).length
    | _ => .null

def truncateCell (unit value : Cell) : Except StoreError Cell :=
  match unit, value with
  | .text _, .null => .ok .null
  | .text unit, .text value =>
    match dateTrunc unit value with
    | .ok (some text) => .ok (.text text)
    | .ok none => .ok .null
    | .error .outOfRange => .error (.badArgument "date_trunc")
  | _, _ => .error (.badArgument "date_trunc")

def applyFunction (name : String) (args : List Computed) : Except StoreError (List Cell → Except StoreError Cell) :=
  match Text.lowerAscii name, args with
  | "length", [a] => .ok fun row => return lengthOf (← a.eval row)
  | "date_trunc", [unit, value] =>
    .ok fun row => do truncateCell (← unit.eval row) (← value.eval row)
  | _, _ => .error (.noSuchFunction name)

def applyOperator (op : Sql.Operator) (left right : Computed) :
    Except StoreError (List Cell → Except StoreError Cell) :=
  match op with
  | .and => .ok fun row => do
    let a ← left.eval row
    let b ← right.eval row
    return .ofTruth? (match a.truth?, b.truth? with
      | some false, _ => some false
      | _, some false => some false
      | some true, some true => some true
      | _, _ => none)
  | .other "OR" => .ok fun row => do
    let a ← left.eval row
    let b ← right.eval row
    return .ofTruth? (match a.truth?, b.truth? with
      | some true, _ => some true
      | _, some true => some true
      | some false, some false => some false
      | _, _ => none)
  | op =>
    match Comparison.ofOperator? op with
    | none => .error (.unsupported op.render)
    | some c => .ok fun row => do
      let (a, b) := left.affinity.agree right.affinity (← left.eval row) (← right.eval row)
      return .ofTruth? (c.decide a b)

def negate : Cell → Cell
  | .int i => .int (-i)
  | .real (.finite negative m q) => .real (.finite (!negative) m q)
  | .real (.infinite negative) => .real (.infinite (!negative))
  | c => c

def resolveValue (params : List Cell) (columns : List RowColumn) : Expr Query → Except StoreError Computed
  | .ident name =>
    match columnValue columns fun c => sameName c.info.name name.value, name.quote with
    | some c, _ => .ok c
    | none, some '"' => .ok (computedOf name.render fun _ => .ok (.text name.value))
    | none, _ => .error (.noSuchColumn name.value)
  | .path parts =>
    match parts with
    | [relation, name] =>
      match columnValue columns fun c =>
          sameName c.relation relation.value && sameName c.info.name name.value with
      | some c => .ok c
      | none => .error (.noSuchColumn parts.render)
    | _ => .error (.noSuchColumn parts.render)
  | .literal value => do
    let c ← literalCell params value
    return computedOf value.render fun _ => .ok c
  | .binary op left right => do
    let l ← resolveValue params columns left
    let r ← resolveValue params columns right
    let eval ← applyOperator op l r
    return computedOf (Expr.render (.binary op left right)) eval
  | .nested inner => do
    let c ← resolveValue params columns inner
    return { c with info := ⟨"(" ++ inner.render ++ ")", ""⟩ }
  | .call name shape parts => do
    match name with
    | [function] =>
      if !isPlainCall shape parts.length then throw (.unsupported function.value)
      let eval ← applyFunction function.value (← resolveAll parts)
      return computedOf (Expr.render (.call name shape parts)) eval
    | _ => throw (.unsupported name.render)
  | .form [.text "-", .hole 0] [inner] => do
    let c ← resolveValue params columns inner
    return computedOf ("-" ++ inner.render) fun row => return negate (← c.eval row)
  | .form [.hole 0, .text " IS NULL"] [inner] => do
    let c ← resolveValue params columns inner
    return computedOf (inner.render ++ " IS NULL") fun row =>
      return .ofTruth? (some ((← c.eval row) == .null))
  | .form [.hole 0, .text " IS NOT NULL"] [inner] => do
    let c ← resolveValue params columns inner
    return computedOf (inner.render ++ " IS NOT NULL") fun row =>
      return .ofTruth? (some ((← c.eval row) != .null))
  | .form shape parts => .error (.unsupported (Expr.render (.form shape parts)))
  | .query q => .error (.unsupported q.render)
where
  /-- Resolves the names of several expressions. -/
  resolveAll : List (Expr Query) → Except StoreError (List Computed)
    | [] => .ok []
    | part :: rest => do
      let c ← resolveValue params columns part
      let cs ← resolveAll rest
      return c :: cs

def resolveOutput (params : List Cell) (columns : List RowColumn) (e : Expr Query) : Except StoreError Output :=
  match e with
  | .call [function] shape [] =>
    if sameName function.value "count" && shape.fill [] == "(*)" then .ok (.count ⟨e.render, ""⟩)
    else .value <$> resolveValue params columns e
  | e => .value <$> resolveValue params columns e

def allOutputs (columns : List RowColumn) : List Output :=
  columns.mapIdx fun i c =>
    .value { info := c.info, affinity := c.affinity, eval := fun row => .ok (row.getD i .null) }

def resolveItem (params : List Cell) (columns : List RowColumn) : SelectItem Query → Except StoreError (List Output)
  | .wildcard _ => .ok (allOutputs columns)
  | .qualifiedWildcard name _ =>
    if columns.all fun c => (name.values.getLast?.any (sameName c.relation)) then
      .ok (allOutputs columns)
    else .error (.noSuchTable name.render)
  | .expr e => do return [← resolveOutput params columns e]
  | .aliased e label => do
    match ← resolveOutput params columns e with
    | .value c => return [.value { c with info := { c.info with name := label.value } }]
    | .count info => return [.count { info with name := label.value }]

/-- A key to sort by: a value, and whether it ascends. -/
abbrev SortKey := Computed × Bool

/-- The value an ORDER BY item means: an output column by its alias or position, or an expression. -/
def resolveKey (params : List Cell) (columns : List RowColumn) (outputs : List Output)
    (item : OrderItem Query) : Except StoreError SortKey := do
  let ascending := item.ascending.getD true
  let output : Option Output := match item.expr with
    | .ident name => outputs.find? fun o => sameName o.info.name name.value
    | .literal (.number digits _) => do
      let n ← Number.readWord? digits
      if n = 0 then none else outputs[n - 1]?
    | _ => none
  match output with
  | some (.value c) => return (c, ascending)
  | _ => return (← resolveValue params columns item.expr, ascending)

def keysLe : List (Cell × Cell × Bool) → Bool
  | [] => true
  | (a, b, ascending) :: rest =>
    match a.order b with
    | .lt => ascending
    | .gt => !ascending
    | .eq => keysLe rest

def sortRows (keys : List SortKey) (rows : List (List Cell)) : Except StoreError (List (List Cell)) := do
  if keys.isEmpty then return rows
  let keyed ← rows.mapM fun row => do
    return (← keys.mapM fun (c, _) => c.eval row, row)
  let le (a b : List Cell × List Cell) : Bool :=
    keysLe (List.zip a.1 (List.zip b.1 (keys.map (·.2))))
  return (keyed.mergeSort le).map (·.2)

def filterRows (condition : Option Computed) (rows : List (List Cell)) : Except StoreError (List (List Cell)) :=
  match condition with
  | none => .ok rows
  | some c => rows.filterM fun row => return (← c.eval row).truth? == some true

/-- How many rows a LIMIT allows; nothing if there is no bound. -/
def limitOf (params : List Cell) (limit : Option (Expr Query)) : Except StoreError (Option Nat) := do
  match limit with
  | none => return none
  | some e =>
    let c ← resolveValue params [] e
    match (← c.eval []).preferInt with
    | .int i => return if i < 0 then none else some i.toNat
    | _ => throw (.badArgument "LIMIT")

def outputRows (outputs : List Output) (rows : List (List Cell)) : Except StoreError (List (List Cell)) :=
  let row (source : List Cell) : Except StoreError (List Cell) :=
    outputs.mapM fun
      | .value c => c.eval source
      | .count _ => return .int rows.length
  if outputs.any Output.isCount then do
    if !outputs.all Output.isCount then throw (.unsupported "columns beside count(*)")
    return [← row []]
  else rows.mapM row

/-- WITH queries by their names; one that fails does so only when it is read. -/
abbrev NamedRows := List (String × Except StoreError Rowset)

def Rowset.rename (name : String) (r : Rowset) : Rowset :=
  { r with columns := r.columns.map fun c => { c with relation := name } }

def Table.rowset (t : Table) : Rowset where
  columns := t.columns.map fun c => ⟨t.name, c, .ofDeclared c.typeName⟩
  rows := .ok t.rows

def relationRows (s : Store) (named : NamedRows) (nested : Query → Except StoreError Rowset) :
    Relation Query → Except StoreError Rowset
  | .table [name] none _ label _ => do
    let shown := (label.map (·.name.value)).getD name.value
    match named.find? (sameName ·.1 name.value) with
    | some (_, rows) => return (← rows).rename shown
    | none =>
      match s.table? name.value with
      | some t => return t.rowset.rename shown
      | none => throw (.noSuchTable name.value)
  | .derived _ q label => do
    return (← nested q).rename ((label.map (·.name.value)).getD "")
  | r => .error (.unsupported r.render)

def isAbsent (e : Expr Query) : Bool := e.render.isEmpty

def sourceRows (s : Store) (named : NamedRows) (nested : Query → Except StoreError Rowset)
    (select : Select Query) : Except StoreError Rowset :=
  match select.source with
  | [] => .ok ⟨[], .ok [[]]⟩
  | [⟨relation, []⟩] => relationRows s named nested relation
  | _ => .error (.unsupported "joins")

/-- Whether a SELECT has only the clauses that the store knows. -/
def isSimple (select : Select Query) : Bool :=
  isAbsent select.quantifier && select.into.isNone && isAbsent select.views &&
    (match select.groupBy with
      | .exprs [] _ => true
      | _ => false) &&
    isAbsent select.distribution && select.having.isNone && isAbsent select.windows &&
    select.qualify.isNone && isAbsent select.trailer

/-- The rows of a SELECT with the order and the limit of its query. -/
def selectRows (s : Store) (params : List Cell) (named : NamedRows)
    (nested : Query → Except StoreError Rowset) (q : Query) (select : Select Query) : Except StoreError Rowset := do
  if !isSimple select || !isAbsent q.trailer then throw (.unsupported q.render)
  let source ← sourceRows s named nested select
  let outputs := (← select.items.mapM (resolveItem params source.columns)).flatten
  let condition ← match select.filter with
    | none => pure none
    | some e => do pure (some (← resolveValue params source.columns e))
  let keys ← q.orderBy.mapM (resolveKey params source.columns outputs)
  let limit ← limitOf params q.limit
  return {
    columns := outputs.map fun o => ⟨"", o.info, o.affinity⟩
    rows := do
      let rows ← filterRows condition (← source.rows)
      let rows ← sortRows (if outputs.any Output.isCount then [] else keys) rows
      let rows ← outputRows outputs rows
      return match limit with
        | none => rows
        | some n => rows.take n }

/-- The rows of a query nested at most `n` deep. -/
def queryRows (s : Store) (params : List Cell) : Nat → NamedRows → Query → Except StoreError Rowset
  | 0, _, q => .error (.unsupported q.render)
  | n + 1, named, q =>
    let named := q.ctes.foldl
      (fun named cte => (cte.name.value, queryRows s params n named cte.query) :: named) named
    match q.body with
    | .select select => selectRows s params named (queryRows s params n named) q select
    | _ => .error (.unsupported q.render)

namespace Store

/-- The parameter numbers up to the largest, given the tokens of a statement. -/
def parameterCount (tokens : List Token) : Nat :=
  tokens.foldl (fun count token =>
    match token with
    | .placeholder text =>
      match text.toList with
      | ['?'] => count + 1
      | '?' :: digits => max count ((Number.readWord? (String.ofList digits)).getD 0)
      | _ => count + 1
    | _ => count) 0

def firstStatement (sql : String) : Except StoreError (List Token) :=
  match Token.ofText .sqlite sql with
  | none => .error .badSyntax
  | some tokens =>
    .ok ((tokens.dropWhile (· == .symbol ";")).takeWhile (· != .symbol ";"))

/-- The first query of a text with the number of its parameters; nothing if the text is empty. -/
def prepare (sql : String) : Except StoreError (Option (Query × Nat)) := do
  match ← firstStatement sql with
  | [] => return none
  | tokens =>
    match Sql.Grammar.statements .sqlite tokens with
    | some ([.query q], _) => return some (q, parameterCount tokens)
    | some _ => throw (.unsupported sql)
    | none => throw .badSyntax

def query (s : Store) (sql : String) (params : List Value) : Except StoreError Records := do
  match ← prepare sql with
  | none => throw .notAStatement
  | some (q, count) =>
    if params.length != count then throw (.wrongCount count params.length)
    let r ← queryRows s (params.map Value.toCell) q.height [] q
    return { columns := r.columns.map (·.info), rows := (← r.rows).map (·.map Cell.toValue) }

def describe (s : Store) (sql : String) : Except StoreError (List ColumnInfo) := do
  match ← prepare sql with
  | none => return []
  | some (q, count) =>
    let r ← queryRows s (List.replicate count .null) q.height [] q
    return r.columns.map (·.info)

end Store

end SemanticLayer
