import SemanticLayer.Proofs.Fields

/-! # The SELECTs of a query

A query holds SELECTs at any depth, each with the scope of its clauses. Rewriting a query transfers its
SELECTs to those of the result, and how the two are linked is said once for each kind of rewriting.
-/

namespace SemanticLayer

open Sql List

namespace Sql

/-- The SELECTs that a body consists of. One that stands alone has the ORDER BY of its query. -/
def Body.selects (orderBy : List (OrderItem Query)) : Body Query → List Clauses
  | .select s => [⟨s, orderBy⟩]
  | .setOp _ left right => left.selects [] ++ right.selects []
  | .query _ | .values _ _ | .table _ | .write _ => []

/-- The queries in parentheses that a body consists of. -/
def Body.operands : Body Query → List Query
  | .query q => [q]
  | .setOp _ left right => left.operands ++ right.operands
  | .select _ | .values _ _ | .table _ | .write _ => []

end Sql

namespace Clauses

/-- The queries nested in the FROM clause, within reach. -/
def inner (reach : Reach) (a : Clauses) : List Query := a.select.source.flatMap (FromItem.inner reach)

def otherNames (a : Clauses) : List Path :=
  a.select.source.flatMap (FromItem.names .visited) ++ a.select.otherExprs.flatMap Expr.names

theorem SameSource.inner {a b : Clauses} (same : a.SameSource b) (reach : Reach) : b.inner reach = a.inner reach := by
  unfold Clauses.inner
  rw [same.source]

theorem SameSource.otherNames {a b : Clauses} (same : a.SameSource b) : b.otherNames = a.otherNames := by
  unfold Clauses.otherNames
  rw [same.source, same.others]

theorem queries_eq (reach : Reach) (a : Clauses) :
    a.queries reach = a.select.clauseQueries reach ++ orderQueries a.orderBy := by
  have items : (a.select.items.flatMap (SelectItem.exprs reach)).flatMap Expr.queries =
      a.select.items.flatMap (SelectItem.inner reach) := by
    rw [flatMap_assoc]
    congr 1
    funext item
    cases item <;> cases reach <;> simp [SelectItem.exprs, SelectItem.inner, Reach.aside]
  have option : ∀ e : Option (Expr Query), e.toList.flatMap Expr.queries = queriesOf e := by
    intro e
    cases e <;> simp [queriesOf]
  have grouped : a.select.groupBy.exprList.flatMap Expr.queries = a.select.groupBy.queries := by
    cases a.select.groupBy <;> rfl
  simp only [queries, exprs, Select.exprs, flatMap_append, items, option, grouped, Select.clauseQueries,
    orderQueries, flatMap_map]

end Clauses

section Heights

variable {reach : Reach} {orderBy : List (OrderItem Query)} {a : Clauses} {x : Query}

theorem mem_inner_of_select : ∀ {b : Body Query} {orderBy : List (OrderItem Query)},
    a ∈ b.selects orderBy → x ∈ a.queries reach ∨ x ∈ a.inner reach → x ∈ b.inner reach ++ orderQueries orderBy
  | .select s, orderBy, member, nested => by
    obtain rfl := mem_singleton.mp member
    rw [Clauses.queries_eq] at nested
    simp only [Body.inner, Select.inner, Clauses.inner, mem_append] at nested ⊢
    tauto
  | .setOp _ left right, orderBy, member, nested => by
    have unordered : orderQueries [] = [] := rfl
    rcases mem_append.mp member with member | member
    · have inLeft := mem_inner_of_select member nested
      rw [unordered, append_nil] at inLeft
      exact mem_append_left _ (mem_append_left _ inLeft)
    · have inRight := mem_inner_of_select member nested
      rw [unordered, append_nil] at inRight
      exact mem_append_left _ (mem_append_right _ inRight)

theorem Query.height_lt_of_select {q : Query} (member : a ∈ q.body.selects q.orderBy)
    (nested : x ∈ a.queries reach ∨ x ∈ a.inner reach) : x.height < q.height :=
  Query.height_lt_inner (mem_append_left _ (mem_inner_of_select member nested))

theorem mem_inner_of_operand (reach : Reach) : ∀ {b : Body Query}, x ∈ b.operands → x ∈ b.inner reach
  | .query _, member => member
  | .setOp _ _ _, member => by
    rcases mem_append.mp member with member | member
    · exact mem_append_left _ (mem_inner_of_operand reach member)
    · exact mem_append_right _ (mem_inner_of_operand reach member)

theorem Query.height_lt_of_operand {q : Query} (member : x ∈ q.body.operands) : x.height < q.height := by
  have inside : x ∈ q.inner .visited :=
    mem_append_left _ (mem_append_left _ (mem_inner_of_operand .visited member))
  exact Query.height_lt_inner inside

end Heights

namespace Context

variable (c : Context) (reach : Reach)

/-- What the FROM clause of a SELECT brings into scope. -/
def frame (a : Clauses) : Frame := { fields := c.sourceFields a.select.source }

/-- A query holds a SELECT with a scope of its clauses; `parent` is the scope around the query. Queries in a FROM
clause do not see what is around them. -/
inductive Holds : Scope → Query → Scope → Clauses → Prop
  | here {parent : Scope} {q : Query} {a : Clauses} :
      a ∈ q.body.selects q.orderBy → Holds parent q (c.frame a :: parent) a
  | clause {parent s : Scope} {q x : Query} {a b : Clauses} :
      a ∈ q.body.selects q.orderBy → x ∈ a.queries reach → Holds (c.frame a :: parent) x s b → Holds parent q s b
  | source {parent s : Scope} {q x : Query} {a b : Clauses} :
      a ∈ q.body.selects q.orderBy → x ∈ a.inner reach → Holds [] x s b → Holds parent q s b
  | operand {parent s : Scope} {q x : Query} {b : Clauses} :
      x ∈ q.body.operands → Holds parent x s b → Holds parent q s b
  | entry {parent s : Scope} {q : Query} {cte : Cte Query} {b : Clauses} :
      cte ∈ q.ctes → Holds parent cte.query s b → Holds parent q s b

section Transferring

/- How the SELECTs of a query and of the rewritten one are linked, and which SELECTs may be new. -/
variable (link : Scope → Scope → Clauses → Clauses → Prop) (new : Scope → Clauses → Prop)

/-- The SELECTs of a query are transferred to those of the rewritten query. -/
structure Transfers (parent parent' : Scope) (q q' : Query) : Prop where
  forth : reach = .visited → ∀ s a, c.Holds reach parent q s a →
    ∃ s' a', c.Holds reach parent' q' s' a' ∧ link s s' a a'
  back : ∀ s' a', c.Holds reach parent' q' s' a' → (∃ s a, c.Holds reach parent q s a ∧ link s s' a a') ∨ new s' a'

/-- One SELECT is transferred, with what is nested in it. -/
structure TransfersSelect (parent parent' : Scope) (a a' : Clauses) : Prop where
  linked : link (c.frame a :: parent) (c.frame a' :: parent') a a'
  clause : Correspond reach (c.Transfers reach link new (c.frame a :: parent) (c.frame a' :: parent')) (fun _ => False)
    (a.queries reach) (a'.queries reach)
  source : Correspond reach (c.Transfers reach link new [] []) (fun x => ∀ s b, c.Holds reach [] x s b → new s b)
    (a.inner reach) (a'.inner reach)

variable {c reach link new} {parent parent' : Scope}

theorem Transfers.refl (linked : ∀ s a, link s s a a) (q : Query) : c.Transfers reach link new parent parent q q :=
  ⟨fun _ s a holds => ⟨s, a, holds, linked s a⟩, fun s a holds => .inl ⟨s, a, holds, linked s a⟩⟩

theorem Transfers.of_parts {q q' : Query}
    (selects : Forall₂ (c.TransfersSelect reach link new parent parent') (q.body.selects q.orderBy)
      (q'.body.selects q'.orderBy))
    (operands : Forall₂ (c.Transfers reach link new parent parent') q.body.operands q'.body.operands)
    (entries : Forall₂ (fun cte cte' => c.Transfers reach link new parent parent' cte.query cte'.query)
      q.ctes q'.ctes) : c.Transfers reach link new parent parent' q q' := by
  constructor
  · intro visited s a holds
    -- Nothing that is visited gets lost.
    have kept : ∀ {p : Prop}, p ∨ reach = .written → p := by
      rintro p (h | written)
      · exact h
      · rw [visited] at written
        cases written
    cases holds with
    | here member =>
      obtain ⟨a', member', transfers⟩ := forall₂_exists selects a member
      exact ⟨_, a', .here member', transfers.linked⟩
    | clause member nested holds =>
      obtain ⟨a', member', transfers⟩ := forall₂_exists selects _ member
      obtain ⟨x', nested', inside⟩ := kept (transfers.clause.forth _ nested)
      obtain ⟨s', b', holds', linked⟩ := inside.forth visited s a holds
      exact ⟨s', b', .clause member' nested' holds', linked⟩
    | source member nested holds =>
      obtain ⟨a', member', transfers⟩ := forall₂_exists selects _ member
      obtain ⟨x', nested', inside⟩ := kept (transfers.source.forth _ nested)
      obtain ⟨s', b', holds', linked⟩ := inside.forth visited s a holds
      exact ⟨s', b', .source member' nested' holds', linked⟩
    | operand member holds =>
      obtain ⟨x', member', inside⟩ := forall₂_exists operands _ member
      obtain ⟨s', b', holds', linked⟩ := inside.forth visited s a holds
      exact ⟨s', b', .operand member' holds', linked⟩
    | entry member holds =>
      obtain ⟨cte', member', inside⟩ := forall₂_exists entries _ member
      obtain ⟨s', b', holds', linked⟩ := inside.forth visited s a holds
      exact ⟨s', b', .entry member' holds', linked⟩
  · intro s' a' holds'
    cases holds' with
    | here member' =>
      obtain ⟨a, member, transfers⟩ := forall₂_exists selects.flip a' member'
      exact .inl ⟨_, a, .here member, transfers.linked⟩
    | clause member' nested' holds' =>
      obtain ⟨a, member, transfers⟩ := forall₂_exists selects.flip _ member'
      obtain ⟨x, nested, inside⟩ := (transfers.clause.back _ nested').resolve_right id
      refine (inside.back s' a' holds').imp_left ?_
      exact fun ⟨s, b, holds, linked⟩ => ⟨s, b, .clause member nested holds, linked⟩
    | source member' nested' holds' =>
      obtain ⟨a, member, transfers⟩ := forall₂_exists selects.flip _ member'
      rcases transfers.source.back _ nested' with ⟨x, nested, inside⟩ | fresh
      · refine (inside.back s' a' holds').imp_left ?_
        exact fun ⟨s, b, holds, linked⟩ => ⟨s, b, .source member nested holds, linked⟩
      · exact .inr (fresh s' a' holds')
    | operand member' holds' =>
      obtain ⟨x, member, inside⟩ := forall₂_exists operands.flip _ member'
      refine (inside.back s' a' holds').imp_left ?_
      exact fun ⟨s, b, holds, linked⟩ => ⟨s, b, .operand member holds, linked⟩
    | entry member' holds' =>
      obtain ⟨cte, member, inside⟩ := forall₂_exists entries.flip _ member'
      refine (inside.back s' a' holds').imp_left ?_
      exact fun ⟨s, b, holds, linked⟩ => ⟨s, b, .entry member holds, linked⟩

end Transferring

end Context

end SemanticLayer
