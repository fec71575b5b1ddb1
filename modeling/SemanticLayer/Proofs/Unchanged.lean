import SemanticLayer.Proofs.Depth
import SemanticLayer.Proofs.Selects

/-! # Walks that change nothing

A walk that keeps names and nested queries gives back the tree it walks, in every monad, as long as the tables of
the tree are kept.
-/

namespace SemanticLayer.Sql

open List

variable {m : Type → Type} [Monad m] [LawfulMonad m] {f : Query → m Query} {w : Expr.Walk m Query Query}

theorem mapM_eq_pure {α : Type} {f : α → m α} {l : List α} (kept : ∀ a ∈ l, f a = pure a) : l.mapM f = pure l := by
  induction l with
  | nil => rw [mapM_nil]
  | cons a l ih =>
    rw [mapM_cons, kept a mem_cons_self, ih fun a member => kept a (mem_cons_of_mem _ member)]
    simp

section Parts

theorem Expr.walkAll_eq_pure {l : List (Expr Query)} (kept : ∀ e ∈ l, e.walk w = pure e) :
    Expr.walk.walkAll w l = pure l := by
  induction l with
  | nil => rw [Expr.walk.walkAll]
  | cons e l ih =>
    rw [Expr.walk.walkAll, kept e mem_cons_self, ih fun e member => kept e (mem_cons_of_mem _ member)]
    simp

theorem Expr.walk_eq_pure (calls : ∀ name, w.call name = name) (bare : ∀ name, w.ident name = pure (.ident name)) :
    ∀ e : Expr Query, (∀ parts ∈ e.paths, w.path parts = pure (.path parts)) → (∀ q ∈ e.queries, w.query q = pure q) →
    e.walk w = pure e
  | .ident name, _, _ => bare name
  | .path parts, dotted, _ => dotted parts mem_cons_self
  | .literal _, _, _ => rfl
  | .binary _ left right, dotted, inside => by
    simp only [Expr.paths, Expr.queries, forall_mem_append] at dotted inside
    rw [Expr.walk, Expr.walk_eq_pure calls bare left dotted.1 inside.1, pure_bind,
      Expr.walk_eq_pure calls bare right dotted.2 inside.2, pure_bind]
  | .nested inner, dotted, inside => by rw [Expr.walk, Expr.walk_eq_pure calls bare inner dotted inside, pure_bind]
  | .call _ _ parts, dotted, inside | .form _ parts, dotted, inside => by
    simp only [Expr.paths, Expr.queries, pathsAll_eq_flatMap, queriesAll_eq_flatMap, forall_mem_flatMap] at dotted inside
    have kept := walkAll_eq_pure fun e member => Expr.walk_eq_pure calls bare e (dotted e member) (inside e member)
    simp only [Expr.walk, kept, calls, pure_bind]
  | .query q, _, inside => by rw [Expr.walk, inside q mem_cons_self, pure_bind]

theorem Expr.walk_keep (e : Expr Query) : e.walk (.keep m Query) = pure e :=
  Expr.walk_eq_pure (fun _ => rfl) (fun _ => rfl) e (fun _ _ => rfl) fun _ _ => rfl

theorem Expr.walkAll_keep (l : List (Expr Query)) : Expr.walk.walkAll (.keep m Query) l = pure l :=
  Expr.walkAll_eq_pure fun e _ => e.walk_keep

theorem JoinKind.walk_keep (kind : JoinKind Query) : kind.walk (.keep m Query) = pure kind := by
  cases kind <;> simp [JoinKind.walk, Expr.walk_keep]

theorem JoinConstraint.walk_keep (constraint : JoinConstraint Query) :
    constraint.walk (.keep m Query) = pure constraint := by
  cases constraint <;> simp [JoinConstraint.walk, Expr.walk_keep]

theorem SelectItem.walk_keep (item : SelectItem Query) : item.walk (.keep m Query) = pure item := by
  cases item <;> simp [SelectItem.walk, Expr.walk_keep]

theorem GroupBy.walk_keep (groupBy : GroupBy Query) : groupBy.walk (.keep m Query) = pure groupBy := by
  cases groupBy <;> simp [GroupBy.walk, Expr.walkAll_keep]

theorem walkOption_keep (e : Option (Expr Query)) : walkOption (.keep m Query) e = pure e := by
  cases e <;> simp [walkOption, Expr.walk_keep]

theorem OrderItem.walk_keep (item : OrderItem Query) : item.walk (.keep m Query) = pure item := by
  simp [OrderItem.walk, Expr.walk_keep]

/-- A visit leaves a relation as it is, unless it is a table of another kind of name. -/
def KeepsTables (fixed : Path → Prop) (visit : Relation Query → m (Relation Query)) : Prop :=
  ∀ r, (∀ name args ordinality label hints, r = .table name args ordinality label hints → fixed name) → visit r = pure r

variable {fixed : Path → Prop} {visit : Relation Query → m (Relation Query)}

mutual

theorem Relation.walk_keep (keeps : KeepsTables fixed visit) : ∀ r : Relation Query,
    (∀ name ∈ r.tableNames, fixed name) → r.walk (.keep m Query) visit = pure r
  | .table name none ordinality label hints, names => by
    simp only [Relation.walk, Expr.walk_keep, pure_bind]
    apply keeps
    rintro _ _ _ _ _ ⟨⟩
    exact names name (by simp [Relation.tableNames])
  | .table name (some args) ordinality label hints, names => by
    simp only [Relation.walk, Expr.walk_keep, Expr.walkAll_keep, pure_bind]
    apply keeps
    rintro _ _ _ _ _ ⟨⟩
    exact names name (by simp [Relation.tableNames])
  | .derived lateral query label, _ => by
    rw [Relation.walk]
    exact (pure_bind query _).trans (keeps _ nofun)
  | .nested first joins label, names => by
    simp only [Relation.tableNames, forall_mem_append] at names
    simp only [Relation.walk, Relation.walk_keep keeps first names.1, Join.walkAll_keep keeps joins names.2, pure_bind]
    exact keeps _ nofun
  | .unnest arrays suffix, _ => by
    simp only [Relation.walk, Expr.walkAll_keep, pure_bind]
    exact keeps _ nofun
  | .pivot source turn, names => by
    simp only [Relation.walk, Relation.walk_keep keeps source names, Expr.walk_keep, pure_bind]
    exact keeps _ nofun
  | .other construct, _ => by
    simp only [Relation.walk, Expr.walk_keep, pure_bind]
    exact keeps _ nofun

theorem Join.walkAll_keep (keeps : KeepsTables fixed visit) : ∀ js : List (Join Query),
    (∀ name ∈ Join.tableNamesAll js, fixed name) → Join.walkAll (.keep m Query) visit js = pure js
  | [], _ => by rw [Join.walkAll]
  | .mk isGlobal kind relation constraint :: rest, names => by
    simp only [Join.tableNamesAll, forall_mem_append] at names
    simp only [Join.walkAll, Join.walk, Relation.walk_keep keeps relation names.1, JoinKind.walk_keep,
      JoinConstraint.walk_keep, Join.walkAll_keep keeps rest names.2, pure_bind]

end

theorem FromItem.walk_keep (keeps : KeepsTables fixed visit) (item : FromItem Query)
    (names : ∀ name ∈ item.tableNames, fixed name) : item.walk (.keep m Query) visit = pure item := by
  simp only [FromItem.tableNames, forall_mem_append] at names
  simp only [FromItem.walk, Relation.walk_keep keeps item.first names.1, Join.walkAll_keep keeps item.joins names.2,
    pure_bind]

theorem Select.walk_keep (keeps : KeepsTables fixed visit) (s : Select Query)
    (names : ∀ name ∈ (Body.select s).tableNames, fixed name) : s.walk (.keep m Query) visit = pure s := by
  simp only [Body.tableNames, forall_mem_flatMap] at names
  have source := mapM_eq_pure fun item member => FromItem.walk_keep keeps item (names item member)
  have items := mapM_eq_pure fun item (_ : item ∈ s.items) => SelectItem.walk_keep (m := m) item
  simp only [Select.walk, Expr.walk_keep, items, source, walkOption_keep, GroupBy.walk_keep, pure_bind]

theorem Write.walk_keep (keeps : KeepsTables fixed visit) (w : Write Query)
    (names : ∀ name ∈ (Body.write w).tableNames, fixed name) : w.walk (.keep m Query) visit = pure w := by
  obtain ⟨start, target, change, source, trailer⟩ := w
  simp only [Body.tableNames, forall_mem_append] at names
  cases source with
  | none => simp only [Write.walk, FromItem.walk_keep keeps target names.1, Expr.walk_keep, pure_bind]
  | some item =>
    have written := FromItem.walk_keep keeps item (by simpa using names.2)
    simp only [Write.walk, FromItem.walk_keep keeps target names.1, Expr.walk_keep, written, pure_bind]

theorem Body.walk_keep (keeps : KeepsTables fixed visit) : ∀ b : Body Query, (∀ name ∈ b.tableNames, fixed name) →
    b.walk (.keep m Query) visit = pure b
  | .select s, names => by simp only [Body.walk, Select.walk_keep keeps s names, pure_bind]
  | .query q, _ => by
    rw [Body.walk]
    exact pure_bind q _
  | .setOp _ left right, names => by
    simp only [Body.tableNames, forall_mem_append] at names
    simp only [Body.walk, Body.walk_keep keeps left names.1, Body.walk_keep keeps right names.2, pure_bind]
  | .values rows _, _ => by
    have each := mapM_eq_pure fun row (_ : row ∈ rows) => Expr.walkAll_keep (m := m) row
    simp only [Body.walk, each, pure_bind]
  | .table _, _ => rfl
  | .write w, names => by simp only [Body.walk, Write.walk_keep keeps w names, pure_bind]

end Parts

theorem Query.walk_eq_pure {fixed : Path → Prop} {visit : Relation Query → m (Relation Query)}
    (keeps : KeepsTables fixed visit) (q : Query) (names : ∀ name ∈ q.body.tableNames, fixed name)
    (nested : ∀ x ∈ q.queries, f x = pure x) : q.walk { Expr.Walk.keep m Query with query := f } visit = pure q := by
  rw [Query.walk_congr q nested]
  have entries := mapM_eq_pure (f := fun cte : Cte Query => do
    let query ← (Expr.Walk.keep m Query).query cte.query
    return { cte with query }) fun cte (_ : cte ∈ q.ctes) => pure_bind cte.query _
  have order := mapM_eq_pure fun item (_ : item ∈ q.orderBy) => OrderItem.walk_keep (m := m) item
  change q.walk (.keep m Query) visit = pure q
  simp only [Query.walk, entries, Body.walk_keep keeps q.body names, order, walkOption_keep, Expr.walk_keep, pure_bind]
  cases q
  rfl

theorem Clauses.walk_eq_pure (a : Clauses) (kept : ∀ e ∈ a.exprs .written, e.walk w = pure e) : a.walk w = pure a := by
  simp only [Clauses.exprs, Select.exprs, forall_mem_append, forall_mem_flatMap, forall_mem_map] at kept
  obtain ⟨⟨⟨⟨⟨items, filter⟩, groupBy⟩, having⟩, qualify⟩, orderBy⟩ := kept
  have listed : a.select.items.mapM (SelectItem.walk w) = pure a.select.items := by
    refine mapM_eq_pure fun item member => ?_
    cases item with
    | wildcard e | qualifiedWildcard _ e | expr e | aliased e _ =>
      rw [SelectItem.walk, items _ member e mem_cons_self, pure_bind]
  have ordered : a.orderBy.mapM (OrderItem.walk w) = pure a.orderBy := by
    refine mapM_eq_pure fun item member => ?_
    rw [OrderItem.walk, orderBy item member, pure_bind]
  have optional : ∀ e : Option (Expr Query), (∀ x ∈ e.toList, x.walk w = pure x) → walkOption w e = pure e := by
    intro e kept
    cases e with
    | none => rfl
    | some e => rw [walkOption, kept e (by simp), pure_bind]
  have grouped : a.select.groupBy.walk w = pure a.select.groupBy := by
    cases keys : a.select.groupBy with
    | all => rfl
    | exprs items _ =>
      rw [keys, GroupBy.exprList] at groupBy
      rw [GroupBy.walk, Expr.walkAll_eq_pure groupBy, pure_bind]
  simp only [Clauses.walk, Clauses.walkSelect, listed, optional _ filter, grouped, optional _ having,
    optional _ qualify, ordered, pure_bind]

theorem walkClauses_eq_pure (a : Clauses) (nested : ∀ x ∈ a.queries .written, f x = pure x) :
    a.walk { Expr.Walk.keep m Query with query := f } = pure a := by
  refine Clauses.walk_eq_pure a fun e member => Expr.walk_eq_pure (fun _ => rfl) (fun _ => rfl) e (fun _ _ => rfl) ?_
  exact fun x found => nested x (mem_flatMap.mpr ⟨e, member, found⟩)

mutual

theorem Relation.inner_written : ∀ r : Relation Query, r.inner .written = r.queries
  | .table _ none _ _ _ | .table _ (some _) _ _ _ => by
    simp [Relation.inner, Relation.queries, Reach.aside, argumentQueries]
  | .nested first joins _ => by
    simp [Relation.inner, Relation.queries, Relation.inner_written first, Join.innerAll_written joins]
  | .pivot source _ => by simp [Relation.inner, Relation.queries, Reach.aside, Relation.inner_written source]
  | .derived _ _ _ | .unnest _ _ | .other _ => by simp [Relation.inner, Relation.queries, Reach.aside]

theorem Join.innerAll_written : ∀ js : List (Join Query), Join.innerAll .written js = Join.queriesAll js
  | [] => by simp [Join.innerAll, Join.queriesAll]
  | .mk _ _ relation _ :: rest => by
    simp [Join.innerAll, Join.queriesAll, Join.queries, Reach.aside, Relation.inner_written relation,
      Join.innerAll_written rest]

end

theorem walkSource_eq_pure (source : List (FromItem Query))
    (nested : ∀ x ∈ source.flatMap (FromItem.inner .written), f x = pure x) :
    source.mapM (FromItem.walk { Expr.Walk.keep m Query with query := f } pure) = pure source := by
  have all : FromItem.inner .written = (FromItem.queries : FromItem Query → List Query) := by
    funext item
    rw [FromItem.inner, FromItem.queries, Relation.inner_written, Join.innerAll_written]
  rw [all] at nested
  have keeps : KeepsTables (fun _ => True) (pure : Relation Query → m (Relation Query)) := fun _ _ => rfl
  refine mapM_eq_pure fun item member => ?_
  rw [FromItem.walk_congr item fun x found => nested x (mem_flatMap.mpr ⟨item, member, found⟩)]
  exact FromItem.walk_keep keeps item fun _ _ => trivial

end SemanticLayer.Sql
