import SemanticLayer.Compile.Relationships

/-! # What names refer to

A name is looked up as a whole, then head by head. Reading a name and replacing it go through its heads each in a loop of
its own; both follow the one meaning that is defined here.
-/

namespace SemanticLayer

namespace Scope

variable {s : Scope} {name : DottedName}

/-- A name cut in two at each of its dots, the shortest head first. -/
def cuts (name : DottedName) : List (DottedName × DottedName) :=
  (headLengths name).map fun length => (name.take length, name.drop length)

/-- The field of the first head that means one, with the parts behind that head. -/
def firstHead (s : Scope) : List (DottedName × DottedName) → Except CompileError (Option (Field × DottedName))
  | [] => .ok none
  | (head, rest) :: more => do
    match ← resolve head s with
    | some field => return some (field, rest)
    | none => firstHead s more

/-- What a written name refers to: a field, or a relationship that the name goes through. -/
inductive Reference where
  | nothing
  | field (f : Field)
  /-- A relationship and the parts behind it. -/
  | through (f : Field) (rest : DottedName)
  deriving Repr, DecidableEq

/-- What a written name refers to. The shortest head that means a field decides; if that field is no relationship the
    name refers to nothing. -/
def reference (s : Scope) (name : DottedName) : Except CompileError Reference := do
  match ← resolve name s with
  | some field => return .field field
  | none =>
    match ← firstHead s (cuts name) with
    | none => return .nothing
    | some (field, rest) => return if field.isRelationship then .through field rest else .nothing

def Reference.field? : Reference → Option Field
  | .nothing => none
  | .field f => some f
  | .through f _ => some f

theorem resolveHeads_eq (lengths : List Nat) : s.resolveHeads name lengths =
    (·.bind fun found => if found.1.isRelationship then some found.1 else none) <$>
      s.firstHead (lengths.map fun length => (name.take length, name.drop length)) := by
  induction lengths with
  | nil => rfl
  | cons length longer ih =>
    rw [resolveHeads, List.map_cons, firstHead]
    cases s.resolve (name.take length) with
    | error e => rfl
    | ok field =>
      cases field with
      | none => exact ih
      | some field => rfl

theorem resolveReference_eq : s.resolveReference name = Reference.field? <$> s.reference name := by
  rw [resolveReference, reference]
  cases s.resolve name with
  | error e => rfl
  | ok field =>
    cases field with
    | some field => rfl
    | none =>
      change s.resolveHeads name (headLengths name) = _
      rw [resolveHeads_eq]
      change _ = Reference.field? <$> (s.firstHead (cuts name) >>= _)
      unfold cuts
      cases s.firstHead ((headLengths name).map fun length => (name.take length, name.drop length)) with
      | error e => rfl
      | ok found =>
        rcases found with _ | ⟨field, rest⟩
        · rfl
        · cases related : field.isRelationship <;> simp [related, Functor.map, Except.map, bind, Except.bind, pure,
            Except.pure, Reference.field?]

theorem reference_of_resolveReference {found : Option Field} (meant : s.resolveReference name = .ok found) :
    ∃ r, s.reference name = .ok r ∧ r.field? = found := by
  rw [resolveReference_eq] at meant
  cases refers : s.reference name with
  | error e =>
    rw [refers] at meant
    cases meant
  | ok r =>
    rw [refers] at meant
    cases meant
    exact ⟨r, rfl, rfl⟩

end Scope

section Replacing

open Sql

variable {l : Layer} {s : Scope} {parts : Path}

theorem dereferenceHeads_eq (lengths : List Nat) : dereferenceHeads l s parts lengths = (do
    match ← (s.firstHead (lengths.map fun length => (parts.values.take length, parts.values.drop length)) :
      Except CompileError (Option (Field × DottedName))) with
    | none => return .path parts
    | some (field, rest) =>
      if field.isRelationship then columnThrough l parts field rest else return .path parts) := by
  induction lengths with
  | nil => rfl
  | cons length longer ih =>
    rw [dereferenceHeads, List.map_cons, Scope.firstHead]
    cases s.resolve (parts.values.take length) with
    | error e => rfl
    | ok field =>
      cases field with
      | none => exact ih
      | some field =>
        have decided : ∀ related, (if !related then pure (.path parts) else
            columnThrough l parts field (parts.values.drop length)) =
            if related then columnThrough l parts field (parts.values.drop length) else pure (.path parts) := by
          intro related
          cases related <;> rfl
        exact decided field.isRelationship

theorem dereference_eq : dereference l s parts = (do
    match ← (s.reference parts.values : Except CompileError Scope.Reference) with
    | .nothing | .field _ => return .path parts
    | .through field rest => columnThrough l parts field rest) := by
  rw [dereference, Scope.reference]
  cases s.resolve parts.values with
  | error e => rfl
  | ok field =>
    cases field with
    | some field => rfl
    | none =>
      change dereferenceHeads l s parts (Scope.headLengths parts.values) = _
      rw [dereferenceHeads_eq, Scope.cuts]
      cases s.firstHead ((Scope.headLengths parts.values).map _) with
      | error e => rfl
      | ok found =>
        rcases found with _ | ⟨field, rest⟩
        · rfl
        · have decided : ∀ related : Bool, (if related then columnThrough l parts field rest else pure (.path parts)) =
              match if related then Scope.Reference.through field rest else .nothing with
              | .nothing | .field _ => pure (.path parts)
              | .through field rest => columnThrough l parts field rest := by
            intro related
            cases related <;> rfl
          exact decided field.isRelationship

end Replacing

end SemanticLayer
