import SemanticLayer.Proofs.Acceptance

/-! # Conditions that a filter implies

An analysis notes the comparisons of a column with a literal among the conjuncts of a WHERE clause, and writes each
one as `column operator literal`. A comparison that has the literal in front is noted with its operator as it stands.
So what is noted is true of every row that passes the filter if no inequality has its literal in front, and is true
with its sides exchanged otherwise. Main statement: `Context.noted_predicates_hold`.
-/

namespace SemanticLayer

open Sql (Expr Query Operator Literal)

namespace Sql

/-- Two values compare as an operator says. -/
def Operator.Compares {α : Type} [LT α] [LE α] (x y : α) : Operator → Prop
  | .eq => x = y
  | .notEq => x ≠ y
  | .lt => x < y
  | .ltEq => x ≤ y
  | .gt => y < x
  | .gtEq => y ≤ x
  | .and | .other _ => False

/-- The operator between exchanged sides. -/
def Operator.turned : Operator → Operator
  | .lt => .gt
  | .ltEq => .gtEq
  | .gt => .lt
  | .gtEq => .ltEq
  | op => op

theorem Operator.compares_turned {α : Type} [LT α] [LE α] {x y : α} (op : Operator) :
    op.turned.Compares x y ↔ op.Compares y x := by
  cases op with
  | eq => exact eq_comm
  | notEq => exact ne_comm
  | lt | ltEq | gt | gtEq | and | other => rfl

/-- The parts of an expression between its ANDs, without their parentheses. -/
def Expr.conjuncts {Q : Type} : Expr Q → List (Expr Q)
  | .binary .and left right => left.conjuncts ++ right.conjuncts
  | .nested inner => inner.conjuncts
  | e => [e]

/-- The expression is no inequality with a literal in front. -/
def Expr.ColumnFirst {Q : Type} : Expr Q → Prop
  | .binary op (.literal _) _ => op.turned = op
  | _ => True

end Sql

/-- What the columns of a row hold. Literals, other operands and other conditions may mean anything. -/
structure Valuation (α : Type) where
  column : TableName → String → α
  literal : Literal → α
  operand : Expr Query → α
  condition : Expr Query → Prop

namespace Valuation

variable {α : Type} [LT α] [LE α] (v : Valuation α) (scope : Scope)

def value : Expr Query → α
  | .literal value => v.literal value
  | .nested inner => value inner
  | e => match (columnName? e).map scope.reference with
    | some (.ok (.field f)) => v.column f.table f.column
    | _ => v.operand e

/-- A condition is true of the row. -/
def Holds : Expr Query → Prop
  | .binary .and left right => Holds left ∧ Holds right
  | .nested inner => Holds inner
  | .binary op left right =>
    if op.isComparison then op.Compares (v.value scope left) (v.value scope right)
    else v.condition (.binary op left right)
  | e => v.condition e

/-- A noted condition is true of the row. -/
def Satisfies (p : Predicate) : Prop := p.operator.Compares (v.column p.table p.column) (v.literal p.value)

end Valuation

/-- The condition with the sides of its comparison exchanged. -/
def Predicate.turned (p : Predicate) : Predicate := { p with operator := p.operator.turned }

namespace Context

variable {α : Type} {v : Valuation α} {scope : Scope}

theorem value_of_column {e : Expr Query} {name : DottedName} {f : Field} (named : columnName? e = some name)
    (reads : scope.resolveReference name = .ok (some f)) (plain : f.isRelationship = false) :
    v.value scope e = v.column f.table f.column := by
  obtain ⟨r, refers, isField⟩ := Scope.reference_of_resolveReference reads
  have meant : scope.reference name = .ok (.field f) := by
    cases r with
    | nothing => cases isField
    | field g =>
      cases isField
      exact refers
    | through g rest =>
      cases isField
      rw [(Scope.relationship_of_through refers).1] at plain
      cases plain
  cases e with
  | ident | path =>
    unfold Valuation.value
    simp only [named, Option.map_some, meant]
  | literal | binary | nested | call | form | query => cases named

variable [LT α] [LE α]

/-- A comparison that is noted holds: as it is noted if its column comes first, and with its sides exchanged if its
literal does. -/
theorem satisfies_of_compared {op : Operator} {left right column : Expr Query} {value : Literal} {name : DottedName}
    {f : Field} (compared : comparison? left right = some (column, value)) (named : columnName? column = some name)
    (reads : scope.resolveReference name = .ok (some f)) (plain : f.isRelationship = false)
    (holds : op.Compares (v.value scope left) (v.value scope right)) :
    (right = .literal value ∧ v.Satisfies ⟨f.table, f.column, op, value⟩) ∨
      left = .literal value ∧ v.Satisfies (Predicate.turned ⟨f.table, f.column, op, value⟩) := by
  have read : v.value scope column = v.column f.table f.column := value_of_column named reads plain
  unfold comparison? at compared
  split at compared
  · cases compared
    rw [read] at holds
    exact .inl ⟨rfl, holds⟩
  · cases compared
    rw [read] at holds
    exact .inr ⟨rfl, op.compares_turned.mpr holds⟩
  · cases compared

/-- Every noted condition comes from a conjunct, and holds in the direction that this conjunct gives it. -/
theorem noted_from_conjunct {e : Expr Query} {predicates : List Predicate}
    (noted : predicatesOf scope e = .ok predicates) (holds : v.Holds scope e) : ∀ p ∈ predicates,
      (∃ column, .binary p.operator column (.literal p.value) ∈ e.conjuncts ∧ v.Satisfies p) ∨
      ∃ column, .binary p.operator (.literal p.value) column ∈ e.conjuncts ∧ v.Satisfies p.turned := by
  fun_induction predicatesOf scope e generalizing predicates with
  | case1 left right first second =>
    obtain ⟨some, inLeft, rest⟩ := bind_eq_ok_iff.mp noted
    obtain ⟨others, inRight, rest⟩ := bind_eq_ok_iff.mp rest
    cases rest
    obtain ⟨leftHolds, rightHolds⟩ : v.Holds scope left ∧ v.Holds scope right := by simpa only [Valuation.Holds] using holds
    rw [Expr.conjuncts]
    refine List.forall_mem_append.mpr ⟨fun p member => ?_, fun p member => ?_⟩
    · refine (first inLeft leftHolds p member).imp ?_ ?_
      all_goals
        rintro ⟨column, listed, satisfied⟩
        exact ⟨column, List.mem_append_left _ listed, satisfied⟩
    · refine (second inRight rightHolds p member).imp ?_ ?_
      all_goals
        rintro ⟨column, listed, satisfied⟩
        exact ⟨column, List.mem_append_right _ listed, satisfied⟩
  | case2 inner ih => exact ih noted (by simpa only [Valuation.Holds] using holds)
  | case6 op left right notAnd compares column value compared name named =>
    obtain ⟨found, reads, rest⟩ := bind_eq_ok_iff.mp noted
    cases found with
    | none => cases rest; simp
    | some f =>
      dsimp only at rest
      split at rest
      · cases rest
        simp
      · rename_i plain
        cases rest
        have alone : (Expr.binary op left right).conjuncts = [.binary op left right] := by
          cases op with
          | and => exact absurd rfl notAnd
          | eq | notEq | lt | ltEq | gt | gtEq | other => rfl
        have true : op.Compares (v.value scope left) (v.value scope right) := by
          rw [Valuation.Holds, if_pos (by simpa using compares)] at holds
          · exact holds
          · exact notAnd
        rw [alone]
        refine List.forall_mem_singleton.mpr ((satisfies_of_compared compared named reads (by simpa using plain) true).imp
          ?_ ?_)
        · rintro ⟨rfl, satisfied⟩
          exact ⟨left, List.mem_singleton_self _, satisfied⟩
        · rintro ⟨rfl, satisfied⟩
          exact ⟨right, List.mem_singleton_self _, satisfied⟩
  | case3 | case4 | case5 | case7 => cases noted; simp

/-- Every condition that is noted for a true filter comes from one of its conjuncts, and is true in the direction of
that conjunct. It is true as it is noted if no inequality of the filter has its literal in front. -/
theorem noted_predicates_hold (scope : Scope) (e : Expr Query) (predicates : List Predicate)
    (noted : predicatesOf scope e = .ok predicates) (v : Valuation α) (holds : v.Holds scope e) : (∀ p ∈ predicates,
      (∃ column, .binary p.operator column (.literal p.value) ∈ e.conjuncts ∧ v.Satisfies p) ∨
      ∃ column, .binary p.operator (.literal p.value) column ∈ e.conjuncts ∧ v.Satisfies p.turned) ∧
    ((∀ x ∈ e.conjuncts, x.ColumnFirst) → ∀ p ∈ predicates, v.Satisfies p) := by
  have sides := noted_from_conjunct noted holds
  refine ⟨sides, fun ordered p member => ?_⟩
  rcases sides p member with ⟨_, _, satisfied⟩ | ⟨column, listed, satisfied⟩
  · exact satisfied
  · have same : p.operator.turned = p.operator := ordered _ listed
    rwa [Predicate.turned, same] at satisfied

/-- `10 < price` is noted as `price < 10`, which is false of a price of 20; exchanged it is true. -/
theorem inequality_noted_turned : let price : Field := .plain ⟨"mdl", "test", "Album"⟩ "price" "integer"
    let p : Predicate := ⟨price.table, "price", .lt, .number "10" false⟩
    let e : Expr Query := .binary .lt (.literal p.value) (.ident ⟨"price", none⟩)
    let v : Valuation Nat := { column := fun _ _ => 20, literal := fun _ => 10, operand := fun _ => 0
                               condition := fun _ => True }
    predicatesOf [{ fields := [price] }] e = .ok [p] ∧ v.Holds [{ fields := [price] }] e ∧ ¬ v.Satisfies p ∧
      v.Satisfies p.turned := by
  intro price p e v
  have noted : predicatesOf [{ fields := [price] }] e = .ok [p] := by decide
  have holds : v.Holds [{ fields := [price] }] e := by
    simp [e, v, Valuation.Holds, Valuation.value, Operator.isComparison, Operator.Compares]
    decide
  have false : ¬ v.Satisfies p := by simp [v, p, Valuation.Satisfies, Operator.Compares]
  refine ⟨noted, holds, false, ?_⟩
  rcases (noted_predicates_hold _ e [p] noted v holds).1 p List.mem_cons_self with ⟨_, _, true⟩ | ⟨_, _, true⟩
  · exact absurd true false
  · exact true

end Context

end SemanticLayer
