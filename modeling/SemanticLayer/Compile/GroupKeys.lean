import SemanticLayer.Compile.Joins

/-! # Group keys

Grouping by a relationship groups by the primary key of the related model as well.
-/

namespace SemanticLayer

open Sql (Expr Query SelectItem)

def itemAt (items : List (SelectItem Query)) (position : String) : Option (Expr Query) :=
  match Number.readWord? position with
  | none | some 0 => none
  | some (n + 1) =>
    match items[n]? with
    | some (.expr e) | some (.aliased e _) => some e
    | _ => none

/-- The relationship that a group key means, directly or by its output position. -/
def relationshipKey (items : List (SelectItem Query)) (scope : Scope) (e : Expr Query) :
    Except CompileError (Option Field) := do
  let e := match e with
    | .literal (.number position _) => itemAt items position
    | e => some e
  match e.bind columnName? with
  | none => return none
  | some name => return (← scope.resolve name).filter Field.isRelationship

/-- Keys of related models with the indexes where they are to be put, and the joins that they need. -/
structure RelatedKeys where
  keys : List (Nat × Expr Query) := []
  joins : List RelatedJoin := []

namespace RelatedKeys

/-- Notes the key of the related model and its join, if a group key means a relationship. -/
def note (l : Layer) (items : List (SelectItem Query)) (scope : Scope) (found : RelatedKeys) :
    Expr Query × Nat → Except CompileError RelatedKeys
  | (e, index) => do
    let some field ← relationshipKey items scope e | return found
    let join ← RelatedJoin.ofField l field
    let some target := l.model? join.target | throw (.modelNotFound join.target)
    let some key := target.primaryKey | throw (.noPrimaryKey field.name target.name)
    return { keys := found.keys ++ [(index, .path [.ofName join.label, .ofName key])]
             joins := found.joins ++ [join] }

/-- Puts the keys into a list, the last one first, so that the indexes before it stay right. -/
def insertInto (found : RelatedKeys) (keys : List (Expr Query)) : List (Expr Query) :=
  found.keys.reverse.foldl (fun keys (index, key) => keys.insertIdx index key) keys

end RelatedKeys

def groupKeyJoins (l : Layer) : JoinFinder := fun clauses scope => do
  match clauses.select.groupBy with
  | .all _ => return (clauses, [])
  | .exprs keys modifiers =>
    let found ← keys.zipIdx.foldlM (RelatedKeys.note l clauses.select.items scope) {}
    let groupBy := .exprs (found.insertInto keys) modifiers
    return ({ clauses with select := { clauses.select with groupBy } }, found.joins)

namespace Context

variable (c : Context)

def compileGroupKeys (q : Query) : Except CompileError Query := do
  let (q, targets) ← c.joinQuery (groupKeyJoins c.layer) q
  return With.sort (← addModels c.layer targets q)

end Context

end SemanticLayer
