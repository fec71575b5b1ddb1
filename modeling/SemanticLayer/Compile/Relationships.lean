import SemanticLayer.Compile.Joins

/-! # Relationships

`relationship.column` reads a column of the related model. It becomes a column of a LEFT JOIN of that
model.
-/

namespace SemanticLayer

open Sql (Path Expr Query)

section Names

variable (l : Layer) (scope : Scope) (parts : Path)

/-- The column of a related model that stands behind a relationship in a dotted name, noting the join it
    needs. -/
def columnThrough (field : Field) : DottedName → StateT (List RelatedJoin) (Except CompileError) (Expr Query)
  | [column] => do
    let join ← RelatedJoin.ofField l field
    let some target := l.model? join.target | throw (.modelNotFound join.target)
    let some found := target.column? column | throw (.columnNotFound column target.name)
    if found.relationship.isSome then throw (.manyDereferences (DottedName.render parts.values))
    modify fun joins => if joins.any (·.label == join.label) then joins else joins ++ [join]
    return .path [.ofName join.label, .ofName column]
  | _ => throw (.manyDereferences (DottedName.render parts.values))

/-- What becomes of a dotted name that means no field, given the lengths of the heads to try. -/
def dereferenceHeads : List Nat → StateT (List RelatedJoin) (Except CompileError) (Expr Query)
  | [] => return .path parts
  | length :: longer => do
    let some field ← scope.resolve (parts.values.take length) | dereferenceHeads longer
    if !field.isRelationship then return .path parts
    columnThrough l parts field (parts.values.drop length)

/-- The column of a related model that a dotted name reads, noting the join it needs. -/
def dereference : StateT (List RelatedJoin) (Except CompileError) (Expr Query) := do
  if (← scope.resolve parts.values).isSome then return .path parts
  dereferenceHeads l scope parts (Scope.headLengths parts.values)

end Names

def dereferences (l : Layer) : JoinFinder := fun clauses scope =>
  (clauses.walk { Expr.Walk.keep _ _ with path := dereference l scope }).run []

namespace Context

variable (c : Context)

/-- Replaces the dotted names that go through relationships; the joined models are part of the
    result. -/
def joinRelationships (q : Query) : Except CompileError (Query × List String) :=
  c.joinQuery (dereferences c.layer) q

def compileRelationships (q : Query) : Except CompileError Query := do
  let (q, targets) ← c.joinRelationships q
  return With.sort (← addModels c.layer targets q)

end Context

end SemanticLayer
