import SemanticLayer.Compile.Error
import SemanticLayer.Scope.Field

/-! # Scopes

A scope is a chain of frames, the innermost first. A name means what the first frame with a match
says; two matches in that frame make it ambiguous.
-/

namespace SemanticLayer

structure Frame where
  fields : List Field := []
  named : List String := []
  deriving Repr, DecidableEq

/-- Frames from the innermost to the outermost. -/
abbrev Scope := List Frame

namespace Scope

def fields : Scope → List Field
  | [] => []
  | frame :: _ => frame.fields

def isNamed (s : Scope) (name : String) : Bool := s.any (·.named.contains name)

def resolve (name : DottedName) : Scope → Except CompileError (Option Field)
  | [] => .ok none
  | frame :: outer =>
    match frame.fields.filter (·.answersTo name) with
    | [] => resolve name outer
    | [field] => .ok (some field)
    | _ => .error (.ambiguousName (DottedName.render name))

/-- The lengths of the proper heads of a name. -/
def headLengths (name : DottedName) : List Nat := List.range' 1 (name.length - 1)

/-- The relationship that a name goes through, given the lengths of the heads to try. The first head that
    means a field decides. -/
def resolveHeads (s : Scope) (name : DottedName) : List Nat → Except CompileError (Option Field)
  | [] => return none
  | length :: longer => do
    match ← resolve (name.take length) s with
    | some field => return if field.isRelationship then some field else none
    | none => resolveHeads s name longer

/-- The field that a written name refers to: the one it means, or a relationship that it goes through. -/
def resolveReference (s : Scope) (name : DottedName) : Except CompileError (Option Field) := do
  match ← resolve name s with
  | some field => return some field
  | none => s.resolveHeads name (headLengths name)

def fieldsOf (s : Scope) (e : Sql.Expr Sql.Query) : Except CompileError (List Field) := do
  let found ← e.names.mapM fun name => s.resolveReference name.values
  return found.filterMap id

end Scope

end SemanticLayer
