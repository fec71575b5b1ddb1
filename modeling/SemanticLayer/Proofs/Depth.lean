import SemanticLayer.Proofs.Walks

/-! # How deep an edit goes

A walk depends only on what is done with the queries that are nested in its tree. So an edit that goes
deep enough is the edit, and editing a query edits each of its entries.
-/

namespace SemanticLayer.Sql

open List

variable {m : Type → Type} [Monad m]

theorem mapM_congr [LawfulMonad m] {α β : Type} {f g : α → m β} {l : List α} (agree : ∀ a ∈ l, f a = g a) :
    l.mapM f = l.mapM g := by
  induction l with
  | nil => rfl
  | cons a l ih =>
    rw [mapM_cons, mapM_cons, agree a mem_cons_self, ih fun a member => agree a (mem_cons_of_mem _ member)]

section Parts

variable {Q R : Type} {w : Expr.Walk m Q R} {f g : Q → m R}

mutual

theorem Expr.walk_congr : ∀ e : Expr Q, (∀ x ∈ e.queries, f x = g x) →
    e.walk { w with query := f } = e.walk { w with query := g }
  | .ident _, _ | .path _, _ | .literal _, _ => by simp only [Expr.walk]
  | .binary _ left right, agree => by
    simp only [Expr.queries, forall_mem_append] at agree
    simp only [Expr.walk, Expr.walk_congr left agree.1, Expr.walk_congr right agree.2]
  | .nested inner, agree => by simp only [Expr.walk, Expr.walk_congr inner agree]
  | .call _ _ parts, agree | .form _ parts, agree => by
    simp only [Expr.walk, Expr.walkAll_congr parts agree]
  | .query q, agree => by simp only [Expr.walk, agree q mem_cons_self]

theorem Expr.walkAll_congr : ∀ l : List (Expr Q), (∀ x ∈ Expr.queries.queriesAll l, f x = g x) →
    Expr.walk.walkAll { w with query := f } l = Expr.walk.walkAll { w with query := g } l
  | [], _ => by simp only [Expr.walk.walkAll]
  | e :: l, agree => by
    simp only [Expr.queries.queriesAll, forall_mem_append] at agree
    simp only [Expr.walk.walkAll, Expr.walk_congr e agree.1, Expr.walkAll_congr l agree.2]

end

theorem JoinKind.walk_congr (kind : JoinKind Q) (agree : ∀ x ∈ kind.queries, f x = g x) :
    kind.walk { w with query := f } = kind.walk { w with query := g } := by
  cases kind with
  | asOf condition => simp only [JoinKind.walk, Expr.walk_congr condition agree]
  | plain | cross | crossApply | outerApply => rfl

theorem JoinConstraint.walk_congr (constraint : JoinConstraint Q) (agree : ∀ x ∈ constraint.queries, f x = g x) :
    constraint.walk { w with query := f } = constraint.walk { w with query := g } := by
  cases constraint with
  | condition e => simp only [JoinConstraint.walk, Expr.walk_congr e agree]
  | columns | natural | none => rfl

variable {visit : Relation R → m (Relation R)}

mutual

theorem Relation.walk_congr : ∀ r : Relation Q, (∀ x ∈ r.queries, f x = g x) →
    r.walk { w with query := f } visit = r.walk { w with query := g } visit
  | .table _ none _ _ hints, agree => by
    simp only [Relation.walk, Expr.walk_congr hints agree]
  | .table _ (some args) _ _ hints, agree => by
    simp only [Relation.queries, forall_mem_append] at agree
    simp only [Relation.walk, Expr.walkAll_congr args agree.1, Expr.walk_congr hints agree.2]
  | .derived _ query _, agree => by simp only [Relation.walk, agree query mem_cons_self]
  | .nested first joins _, agree => by
    simp only [Relation.queries, forall_mem_append] at agree
    simp only [Relation.walk, Relation.walk_congr first agree.1, Join.walkAll_congr joins agree.2]
  | .unnest arrays _, agree => by simp only [Relation.walk, Expr.walkAll_congr arrays agree]
  | .pivot source turn, agree => by
    simp only [Relation.queries, forall_mem_append] at agree
    simp only [Relation.walk, Relation.walk_congr source agree.1, Expr.walk_congr turn agree.2]
  | .other construct, agree => by simp only [Relation.walk, Expr.walk_congr construct agree]

theorem Join.walkAll_congr : ∀ js : List (Join Q), (∀ x ∈ Join.queriesAll js, f x = g x) →
    Join.walkAll { w with query := f } visit js = Join.walkAll { w with query := g } visit js
  | [], _ => by simp only [Join.walkAll]
  | .mk _ kind relation constraint :: rest, agree => by
    simp only [Join.queriesAll, Join.queries, forall_mem_append] at agree
    simp only [Join.walkAll, Join.walk, Relation.walk_congr relation agree.1.1.1,
      JoinKind.walk_congr kind agree.1.1.2, JoinConstraint.walk_congr constraint agree.1.2,
      Join.walkAll_congr rest agree.2]

end

theorem FromItem.walk_congr (item : FromItem Q) (agree : ∀ x ∈ item.queries, f x = g x) :
    item.walk { w with query := f } visit = item.walk { w with query := g } visit := by
  simp only [FromItem.queries, forall_mem_append] at agree
  simp only [FromItem.walk, Relation.walk_congr item.first agree.1, Join.walkAll_congr item.joins agree.2]

theorem SelectItem.walk_congr (item : SelectItem Q) (agree : ∀ x ∈ item.queries, f x = g x) :
    item.walk { w with query := f } = item.walk { w with query := g } := by
  cases item with
  | wildcard e | qualifiedWildcard _ e | expr e | aliased e _ =>
    simp only [SelectItem.walk, Expr.walk_congr e agree]

theorem GroupBy.walk_congr (groupBy : GroupBy Q) (agree : ∀ x ∈ groupBy.queries, f x = g x) :
    groupBy.walk { w with query := f } = groupBy.walk { w with query := g } := by
  cases groupBy with
  | all => rfl
  | exprs items _ =>
    rw [GroupBy.queries, ← Expr.queriesAll_eq_flatMap] at agree
    simp only [GroupBy.walk, Expr.walkAll_congr items agree]

theorem walkOption_congr (e : Option (Expr Q)) (agree : ∀ x ∈ queriesOf e, f x = g x) :
    walkOption { w with query := f } e = walkOption { w with query := g } e := by
  cases e with
  | none => rfl
  | some e => simp only [walkOption, Expr.walk_congr e agree]

theorem Write.walk_congr (b : Write Q) (agree : ∀ x ∈ b.queries, f x = g x) :
    b.walk { w with query := f } visit = b.walk { w with query := g } visit := by
  simp only [Write.queries, forall_mem_append, forall_mem_flatMap] at agree
  obtain ⟨⟨⟨target, change⟩, source⟩, trailer⟩ := agree
  cases written : b.source with
  | none =>
    simp only [Write.walk, FromItem.walk_congr _ target, Expr.walk_congr _ change, Expr.walk_congr _ trailer, written]
  | some item =>
    have inner : item.walk { w with query := f } visit = item.walk { w with query := g } visit :=
      FromItem.walk_congr item (source item (by simp [written]))
    simp only [Write.walk, FromItem.walk_congr _ target, Expr.walk_congr _ change,
      Expr.walk_congr _ trailer, written, inner]

variable [LawfulMonad m]

theorem Select.walk_congr (s : Select Q) (agree : ∀ x ∈ s.queries, f x = g x) :
    s.walk { w with query := f } visit = s.walk { w with query := g } visit := by
  simp only [Select.queries, forall_mem_append, forall_mem_flatMap] at agree
  obtain ⟨⟨⟨⟨⟨⟨⟨⟨⟨⟨quantifier, items⟩, source⟩, views⟩, filter⟩, groupBy⟩, distribution⟩, having⟩,
    windows⟩, qualify⟩, trailer⟩ := agree
  simp only [Select.walk, Expr.walk_congr _ quantifier,
    mapM_congr fun item member => SelectItem.walk_congr (w := w) item (items item member),
    mapM_congr fun item member => FromItem.walk_congr (w := w) item (source item member),
    Expr.walk_congr _ views, walkOption_congr _ filter, GroupBy.walk_congr _ groupBy,
    Expr.walk_congr _ distribution, walkOption_congr _ having, Expr.walk_congr _ windows,
    walkOption_congr _ qualify, Expr.walk_congr _ trailer]

theorem Body.walk_congr : ∀ b : Body Q, (∀ x ∈ b.queries, f x = g x) →
    b.walk { w with query := f } visit = b.walk { w with query := g } visit
  | .select s, agree => by simp only [Body.walk, Select.walk_congr s agree]
  | .query q, agree => by simp only [Body.walk, agree q mem_cons_self]
  | .setOp _ left right, agree => by
    simp only [Body.queries, forall_mem_append] at agree
    simp only [Body.walk, Body.walk_congr left agree.1, Body.walk_congr right agree.2]
  | .values rows _, agree => by
    have each : ∀ row ∈ rows, Expr.walk.walkAll { w with query := f } row =
        Expr.walk.walkAll { w with query := g } row := by
      intro row member
      refine Expr.walkAll_congr row fun x found => agree x (mem_flatMap.mpr ⟨row, member, ?_⟩)
      rwa [← Expr.queriesAll_eq_flatMap]
    simp only [Body.walk, mapM_congr each]
  | .table _, _ => rfl
  | .write b, agree => by simp only [Body.walk, Write.walk_congr b agree]

end Parts

variable [LawfulMonad m]

theorem Query.walk_congr {w : Expr.Walk m Query Query} {f g : Query → m Query}
    {visit : Relation Query → m (Relation Query)} (q : Query) (agree : ∀ x ∈ q.queries, f x = g x) :
    q.walk { w with query := f } visit = q.walk { w with query := g } visit := by
  simp only [Query.queries, forall_mem_append, forall_mem_flatMap, forall_mem_map] at agree
  obtain ⟨⟨⟨⟨ctes, body⟩, orderBy⟩, limit⟩, trailer⟩ := agree
  have entries : q.ctes.mapM (fun cte => do return { cte with query := ← f cte.query }) =
      q.ctes.mapM (fun cte => do return { cte with query := ← g cte.query }) :=
    mapM_congr fun cte member => by rw [ctes cte member]
  have order : q.orderBy.mapM (OrderItem.walk { w with query := f }) =
      q.orderBy.mapM (OrderItem.walk { w with query := g }) :=
    mapM_congr fun item member => by simp only [OrderItem.walk, Expr.walk_congr _ (orderBy item member)]
  simp only [Query.walk, entries, Body.walk_congr _ body, order, walkOption_congr _ limit, Expr.walk_congr _ trailer]

theorem Query.editAt_eq_edit (e : Edit m) : ∀ (n : Nat) (q : Query), q.height ≤ n → q.editAt e n = q.edit e
  | 0, q, low => absurd q.height_pos (by omega)
  | n + 1, q, low => by
    obtain ⟨k, height⟩ := Query.exists_succ (Nat.le_refl q.height)
    have agree : ∀ x ∈ q.queries, Query.editAt e n x = Query.editAt e k x := by
      intro x member
      have lower := Query.height_lt_queries member
      rw [Query.editAt_eq_edit e n x (by omega), Query.editAt_eq_edit e k x (by omega)]
    rw [Query.edit, height, Query.editAt, Query.editAt]
    exact Query.walk_congr (w := e.walk pure) q agree
termination_by n => n
decreasing_by all_goals omega

end SemanticLayer.Sql

namespace SemanticLayer

open Sql List

theorem Backend.renameFunctions_ctes (b : Backend) (q : Query) :
    (b.renameFunctions q).ctes = q.ctes.map fun cte => { cte with query := b.renameFunctions cte.query } := by
  obtain ⟨n, height⟩ := Query.exists_succ (Nat.le_refl q.height)
  let e : Edit Id := { Edit.keep Id with call := b.renameFunction }
  have entries : (b.renameFunctions q).ctes =
      q.ctes.map fun cte => { cte with query := Query.editAt e n cte.query } := by
    unfold Backend.renameFunctions Query.edit
    rw [height, Query.editAt]
    change Id.run (q.ctes.mapM _) = _
    rw [idRun_mapM]
    rfl
  rw [entries]
  refine map_congr_left fun cte member => ?_
  have lower := Query.height_lt_ctes member
  rw [Query.editAt_eq_edit e n cte.query (by omega)]
  rfl

end SemanticLayer
