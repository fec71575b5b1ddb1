import Mathlib.Data.List.Forall2
import SemanticLayer.Sql.Edit

/-! # The same tree with other names

A tree is recast if its dotted names and its functions may have other names and its nested queries are related. Edits
that change such names recast a tree. Walks that keep the new tree run alike on both.
-/

namespace SemanticLayer.Sql

/-- How the names of columns, the names of functions and the nested queries of two trees are related. -/
structure Recasting (Q : Type) where
  column : Path → Path → Prop
  call : Path → Path → Prop
  query : Q → Q → Prop

section Recast

variable {Q : Type} (c : Recasting Q)

inductive Expr.Recast : Expr Q → Expr Q → Prop
  | ident (name) : Recast (.ident name) (.ident name)
  | path {name name'} : c.column name name' → Recast (.path name) (.path name')
  | literal (value) : Recast (.literal value) (.literal value)
  | binary {op left left' right right'} :
    Recast left left' → Recast right right' → Recast (.binary op left right) (.binary op left' right')
  | nested {inner inner'} : Recast inner inner' → Recast (.nested inner) (.nested inner')
  | call {name name' shape parts parts'} : c.call name name' → List.Forall₂ Recast parts parts' →
    Recast (.call name shape parts) (.call name' shape parts')
  | form {shape parts parts'} : List.Forall₂ Recast parts parts' → Recast (.form shape parts) (.form shape parts')
  | query {q q'} : c.query q q' → Recast (.query q) (.query q')

inductive JoinKind.Recast : JoinKind Q → JoinKind Q → Prop
  | plain (word) : Recast (.plain word) (.plain word)
  | cross : Recast .cross .cross
  | crossApply : Recast .crossApply .crossApply
  | outerApply : Recast .outerApply .outerApply
  | asOf {e e'} : e.Recast c e' → Recast (.asOf e) (.asOf e')

inductive JoinConstraint.Recast : JoinConstraint Q → JoinConstraint Q → Prop
  | condition {e e'} : e.Recast c e' → Recast (.condition e) (.condition e')
  | columns (names) : Recast (.columns names) (.columns names)
  | natural : Recast .natural .natural
  | none : Recast .none .none

mutual

inductive Relation.Recast : Relation Q → Relation Q → Prop
  | table {name args args' ordinality label hints hints'} : Option.Rel (List.Forall₂ (Expr.Recast c)) args args' →
    hints.Recast c hints' →
    Relation.Recast (.table name args ordinality label hints) (.table name args' ordinality label hints')
  | derived {lateral q q' label} :
    c.query q q' → Relation.Recast (.derived lateral q label) (.derived lateral q' label)
  | nested {first first' joins joins' label} : Relation.Recast first first' → List.Forall₂ Join.Recast joins joins' →
    Relation.Recast (.nested first joins label) (.nested first' joins' label)
  | unnest {arrays arrays' suffix} : List.Forall₂ (Expr.Recast c) arrays arrays' →
    Relation.Recast (.unnest arrays suffix) (.unnest arrays' suffix)
  | pivot {source source' turn turn'} : Relation.Recast source source' → turn.Recast c turn' →
    Relation.Recast (.pivot source turn) (.pivot source' turn')
  | other {e e'} : e.Recast c e' → Relation.Recast (.other e) (.other e')

inductive Join.Recast : Join Q → Join Q → Prop
  | mk {isGlobal kind kind' relation relation' constraint constraint'} : kind.Recast c kind' →
    Relation.Recast relation relation' → constraint.Recast c constraint' →
    Join.Recast (.mk isGlobal kind relation constraint) (.mk isGlobal kind' relation' constraint')

end

structure FromItem.Recast (item item' : FromItem Q) : Prop where
  first : item.first.Recast c item'.first
  joins : List.Forall₂ (Join.Recast c) item.joins item'.joins

inductive SelectItem.Recast : SelectItem Q → SelectItem Q → Prop
  | wildcard {e e'} : e.Recast c e' → Recast (.wildcard e) (.wildcard e')
  | qualifiedWildcard {name e e'} :
    e.Recast c e' → Recast (.qualifiedWildcard name e) (.qualifiedWildcard name e')
  | expr {e e'} : e.Recast c e' → Recast (.expr e) (.expr e')
  | aliased {e e' label} : e.Recast c e' → Recast (.aliased e label) (.aliased e' label)

inductive GroupBy.Recast : GroupBy Q → GroupBy Q → Prop
  | all (modifiers) : Recast (.all modifiers) (.all modifiers)
  | exprs {items items' modifiers} :
    List.Forall₂ (Expr.Recast c) items items' → Recast (.exprs items modifiers) (.exprs items' modifiers)

structure OrderItem.Recast (item item' : OrderItem Q) : Prop where
  expr : item.expr.Recast c item'.expr
  ascending : item'.ascending = item.ascending
  nullsFirst : item'.nullsFirst = item.nullsFirst

structure Select.Recast (s s' : Select Q) : Prop where
  quantifier : s.quantifier.Recast c s'.quantifier
  items : List.Forall₂ (SelectItem.Recast c) s.items s'.items
  into : s'.into = s.into
  source : List.Forall₂ (FromItem.Recast c) s.source s'.source
  views : s.views.Recast c s'.views
  filter : Option.Rel (Expr.Recast c) s.filter s'.filter
  groupBy : s.groupBy.Recast c s'.groupBy
  distribution : s.distribution.Recast c s'.distribution
  having : Option.Rel (Expr.Recast c) s.having s'.having
  windows : s.windows.Recast c s'.windows
  qualify : Option.Rel (Expr.Recast c) s.qualify s'.qualify
  trailer : s.trailer.Recast c s'.trailer

structure Write.Recast (w w' : Write Q) : Prop where
  start : w'.start = w.start
  target : w.target.Recast c w'.target
  change : w.change.Recast c w'.change
  source : Option.Rel (FromItem.Recast c) w.source w'.source
  trailer : w.trailer.Recast c w'.trailer

inductive Body.Recast : Body Q → Body Q → Prop
  | select {s s'} : s.Recast c s' → Recast (.select s) (.select s')
  | query {q q'} : c.query q q' → Recast (.query q) (.query q')
  | setOp {word left left' right right'} :
    Recast left left' → Recast right right' → Recast (.setOp word left right) (.setOp word left' right')
  | values {rows rows' explicitRow} : List.Forall₂ (List.Forall₂ (Expr.Recast c)) rows rows' →
    Recast (.values rows explicitRow) (.values rows' explicitRow)
  | table (name) : Recast (.table name) (.table name)
  | write {w w'} : w.Recast c w' → Recast (.write w) (.write w')

structure Cte.Recast (cte cte' : Cte Q) : Prop where
  same : cte' = { cte with query := cte'.query }
  query : c.query cte.query cte'.query

structure Query.Level (c : Recasting Query) (q q' : Query) : Prop where
  recursive : q'.recursive = q.recursive
  ctes : List.Forall₂ (Cte.Recast c) q.ctes q'.ctes
  body : q.body.Recast c q'.body
  orderBy : List.Forall₂ (OrderItem.Recast c) q.orderBy q'.orderBy
  limit : Option.Rel (Expr.Recast c) q.limit q'.limit
  trailer : q.trailer.Recast c q'.trailer

end Recast

section Edits

variable (column call : Path → Path → Prop)

def Query.RecastAt : Nat → Query → Query → Prop
  | 0, q, q' => q' = q
  | n + 1, q, q' => q.Level ⟨column, call, Query.RecastAt n⟩ q'

/-- The same query, with related names at any depth. -/
def Query.Recast (q q' : Query) : Prop := q.RecastAt column call q.height q'

end Edits

section Walks

variable {c : Recasting Query} {w : Expr.Walk Id Query Query}

/-- A walk that gives related names and queries. -/
structure Expr.Walk.Recasts (c : Recasting Query) (w : Expr.Walk Id Query Query) : Prop where
  ident : ∀ name, w.ident name = .ident name
  path : ∀ name, ∃ name', w.path name = .path name' ∧ c.column name name'
  call : ∀ name, c.call name (w.call name)
  query : ∀ q, c.query q (w.query q)

theorem forall₂_mapM {α : Type} {R : α → α → Prop} {g : α → Id α} (each : ∀ a, R a (g a)) (l : List α) :
    List.Forall₂ R l (Id.run (l.mapM g)) := by
  rw [List.idRun_mapM]
  exact List.forall₂_map_right_iff.mpr (List.forall₂_same.mpr fun a _ => each a)

mutual

theorem Expr.walk_recast (v : w.Recasts c) : ∀ e : Expr Query, e.Recast c (e.walk w)
  | .ident name => by
    rw [Expr.walk, v.ident]
    exact .ident name
  | .path name => by
    obtain ⟨name', same, related⟩ := v.path name
    rw [Expr.walk, same]
    exact .path related
  | .literal value => .literal value
  | .binary _ left right => .binary (Expr.walk_recast v left) (Expr.walk_recast v right)
  | .nested e => .nested (Expr.walk_recast v e)
  | .call name _ parts => .call (v.call name) (Expr.walkAll_recast v parts)
  | .form _ parts => .form (Expr.walkAll_recast v parts)
  | .query q => .query (v.query q)

theorem Expr.walkAll_recast (v : w.Recasts c) : ∀ l : List (Expr Query),
    List.Forall₂ (Expr.Recast c) l (Expr.walk.walkAll w l : Id _)
  | [] => .nil
  | e :: rest => .cons (Expr.walk_recast v e) (Expr.walkAll_recast v rest)

end

variable (v : w.Recasts c)

include v

theorem walkOption_recast : ∀ e : Option (Expr Query), Option.Rel (Expr.Recast c) e (walkOption w e : Id _)
  | none => .none
  | some e => .some (Expr.walk_recast v e)

theorem JoinKind.walk_recast : ∀ kind : JoinKind Query, kind.Recast c (kind.walk w)
  | .plain word => .plain word
  | .cross => .cross
  | .crossApply => .crossApply
  | .outerApply => .outerApply
  | .asOf e => .asOf (e.walk_recast v)

theorem JoinConstraint.walk_recast : ∀ constraint : JoinConstraint Query, constraint.Recast c (constraint.walk w)
  | .condition e => .condition (e.walk_recast v)
  | .columns names => .columns names
  | .natural => .natural
  | .none => .none

mutual

theorem Relation.walk_recast : ∀ r : Relation Query, r.Recast c (r.walk w pure)
  | .table _ none _ _ hints => .table .none (hints.walk_recast v)
  | .table _ (some args) _ _ hints => .table (.some (Expr.walkAll_recast v args)) (hints.walk_recast v)
  | .derived _ q _ => .derived (v.query q)
  | .nested first joins _ => .nested (Relation.walk_recast first) (Join.walkAll_recast joins)
  | .unnest arrays _ => .unnest (Expr.walkAll_recast v arrays)
  | .pivot source turn => .pivot (Relation.walk_recast source) (turn.walk_recast v)
  | .other construct => .other (construct.walk_recast v)

theorem Join.walkAll_recast : ∀ joins : List (Join Query),
    List.Forall₂ (Join.Recast c) joins (Join.walkAll w pure joins : Id _)
  | [] => .nil
  | .mk _ kind relation constraint :: rest =>
    .cons (.mk (kind.walk_recast v) (Relation.walk_recast relation) (constraint.walk_recast v))
      (Join.walkAll_recast rest)

end

theorem FromItem.walk_recast (item : FromItem Query) : item.Recast c (item.walk w pure : Id _) :=
  ⟨item.first.walk_recast v, Join.walkAll_recast v item.joins⟩

theorem SelectItem.walk_recast : ∀ item : SelectItem Query, item.Recast c (item.walk w)
  | .wildcard e => .wildcard (e.walk_recast v)
  | .qualifiedWildcard _ e => .qualifiedWildcard (e.walk_recast v)
  | .expr e => .expr (e.walk_recast v)
  | .aliased e _ => .aliased (e.walk_recast v)

theorem GroupBy.walk_recast : ∀ groupBy : GroupBy Query, groupBy.Recast c (groupBy.walk w)
  | .all modifiers => .all modifiers
  | .exprs items _ => .exprs (Expr.walkAll_recast v items)

theorem Select.walk_recast (s : Select Query) : s.Recast c (s.walk w pure : Id _) where
  quantifier := s.quantifier.walk_recast v
  items := forall₂_mapM (SelectItem.walk_recast v) s.items
  into := rfl
  source := forall₂_mapM (FromItem.walk_recast v) s.source
  views := s.views.walk_recast v
  filter := walkOption_recast v s.filter
  groupBy := s.groupBy.walk_recast v
  distribution := s.distribution.walk_recast v
  having := walkOption_recast v s.having
  windows := s.windows.walk_recast v
  qualify := walkOption_recast v s.qualify
  trailer := s.trailer.walk_recast v

theorem Write.walk_recast (b : Write Query) : b.Recast c (b.walk w pure : Id _) := by
  obtain ⟨start, target, change, source, trailer⟩ := b
  cases source with
  | none => exact ⟨rfl, target.walk_recast v, change.walk_recast v, .none, trailer.walk_recast v⟩
  | some item => exact ⟨rfl, target.walk_recast v, change.walk_recast v, .some (item.walk_recast v), trailer.walk_recast v⟩

theorem Body.walk_recast : ∀ body : Body Query, body.Recast c (body.walk w pure)
  | .select s => .select (s.walk_recast v)
  | .query q => .query (v.query q)
  | .setOp _ left right => .setOp (Body.walk_recast left) (Body.walk_recast right)
  | .values rows _ => .values (forall₂_mapM (Expr.walkAll_recast v) rows)
  | .table name => .table name
  | .write b => .write (b.walk_recast v)

theorem Query.walk_level (q : Query) : q.Level c (q.walk w pure : Id _) where
  recursive := rfl
  ctes := forall₂_mapM (fun cte => ⟨rfl, v.query cte.query⟩) q.ctes
  body := q.body.walk_recast v
  orderBy := forall₂_mapM (fun item => ⟨item.expr.walk_recast v, rfl, rfl⟩) q.orderBy
  limit := walkOption_recast v q.limit
  trailer := q.trailer.walk_recast v

omit v

theorem Query.editAt_recast {column call : Path → Path → Prop} {e : Edit Id} (relation : e.relation = pure)
    (v : ∀ {sub : Query → Query → Prop} {nested}, (∀ q, sub q (nested q)) → (e.walk nested).Recasts ⟨column, call, sub⟩) :
    ∀ (n : Nat) (q : Query), q.RecastAt column call n (q.editAt e n : Id _)
  | 0, _ => rfl
  | n + 1, q => by
    rw [Query.editAt, relation]
    exact q.walk_level (v (Query.editAt_recast relation v n))

end Walks

/-- Two computations run alike, and the second returns a given value. -/
structure Coupling (m : Type → Type) [Monad m] where
  rel : {α : Type} → m α → m α → α → Prop
  pure : ∀ {α : Type} {a b : α}, rel (Pure.pure a) (Pure.pure b) b
  bind : ∀ {α β : Type} {x y : m α} {f g : α → m β} {b : α} {b' : β},
    rel x y b → (∀ a, rel (f a) (g b) b') → rel (x >>= f) (y >>= g) b'

section Coupling

variable {m : Type → Type} [Monad m] {C : Coupling m} {c : Recasting Query} {w : Expr.Walk m Query Query}

/-- A walk runs alike on related names and queries, and keeps the latter. -/
structure Coupling.Keeps (C : Coupling m) (c : Recasting Query) (w : Expr.Walk m Query Query) : Prop where
  ident : ∀ name, C.rel (w.ident name) (w.ident name) (.ident name)
  path : ∀ {name name'}, c.column name name' → C.rel (w.path name) (w.path name') (.path name')
  call : ∀ {name name'}, c.call name name' → w.call name' = name'
  query : ∀ {q q'}, c.query q q' → C.rel (w.query q) (w.query q') q'

theorem Coupling.mapM [LawfulMonad m] {α : Type} {R : α → α → Prop} {g : α → m α}
    (each : ∀ {a a'}, R a a' → C.rel (g a) (g a') a') {l l' : List α} (pairs : List.Forall₂ R l l') :
    C.rel (l.mapM g) (l'.mapM g) l' := by
  induction pairs with
  | nil => exact C.pure
  | cons here _ ih =>
    rw [List.mapM_cons, List.mapM_cons]
    exact C.bind (each here) fun _ => C.bind ih fun _ => C.pure

mutual

theorem Expr.Recast.coupled (k : C.Keeps c w) : ∀ {e e' : Expr Query}, e.Recast c e' → C.rel (e.walk w) (e'.walk w) e'
  | _, _, .ident name => k.ident name
  | _, _, .path related => k.path related
  | _, _, .literal _ => C.pure
  | _, _, .binary left right =>
    C.bind (Expr.Recast.coupled k left) fun _ => C.bind (Expr.Recast.coupled k right) fun _ => C.pure
  | _, _, .nested inner => C.bind (Expr.Recast.coupled k inner) fun _ => C.pure
  | _, _, .call name parts => by
    refine C.bind (Expr.Recast.coupledAll k parts) fun _ => ?_
    rw [k.call name]
    exact C.pure
  | _, _, .form parts => C.bind (Expr.Recast.coupledAll k parts) fun _ => C.pure
  | _, _, .query q => C.bind (k.query q) fun _ => C.pure

theorem Expr.Recast.coupledAll (k : C.Keeps c w) : ∀ {l l' : List (Expr Query)},
    List.Forall₂ (Expr.Recast c) l l' → C.rel (Expr.walk.walkAll w l) (Expr.walk.walkAll w l') l'
  | _, _, .nil => C.pure
  | _, _, .cons head tail =>
    C.bind (Expr.Recast.coupled k head) fun _ => C.bind (Expr.Recast.coupledAll k tail) fun _ => C.pure

end

variable (k : C.Keeps c w)

include k

theorem coupledOption : ∀ {e e' : Option (Expr Query)},
    Option.Rel (Expr.Recast c) e e' → C.rel (walkOption w e) (walkOption w e') e'
  | _, _, .none => C.pure
  | _, _, .some inner => C.bind (inner.coupled k) fun _ => C.pure

theorem JoinKind.Recast.coupled : ∀ {kind kind' : JoinKind Query},
    kind.Recast c kind' → C.rel (kind.walk w) (kind'.walk w) kind'
  | _, _, .plain _ | _, _, .cross | _, _, .crossApply | _, _, .outerApply => C.pure
  | _, _, .asOf e => C.bind (e.coupled k) fun _ => C.pure

theorem JoinConstraint.Recast.coupled : ∀ {x x' : JoinConstraint Query}, x.Recast c x' → C.rel (x.walk w) (x'.walk w) x'
  | _, _, .condition e => C.bind (e.coupled k) fun _ => C.pure
  | _, _, .columns _ | _, _, .natural | _, _, .none => C.pure

mutual

theorem Relation.Recast.coupled : ∀ {x x' : Relation Query}, x.Recast c x' → C.rel (x.walk w pure) (x'.walk w pure) x'
  | _, _, .table .none hints => C.bind C.pure fun _ => C.bind (hints.coupled k) fun _ => C.pure
  | _, _, .table (.some args) hints =>
    C.bind (Expr.Recast.coupledAll k args) fun _ => C.bind C.pure fun _ => C.bind (hints.coupled k) fun _ => C.pure
  | _, _, .derived q => C.bind (k.query q) fun _ => C.pure
  | _, _, .nested first joins =>
    C.bind (Relation.Recast.coupled first) fun _ => C.bind (Join.Recast.coupledAll joins) fun _ => C.pure
  | _, _, .unnest arrays => C.bind (Expr.Recast.coupledAll k arrays) fun _ => C.pure
  | _, _, .pivot source turn =>
    C.bind (Relation.Recast.coupled source) fun _ => C.bind (turn.coupled k) fun _ => C.pure
  | _, _, .other construct => C.bind (construct.coupled k) fun _ => C.pure

theorem Join.Recast.coupledAll : ∀ {joins joins' : List (Join Query)},
    List.Forall₂ (Join.Recast c) joins joins' → C.rel (Join.walkAll w pure joins) (Join.walkAll w pure joins') joins'
  | _, _, .nil => C.pure
  | _, _, .cons (.mk kind relation constraint) rest =>
    C.bind (C.bind (Relation.Recast.coupled relation) fun _ => C.bind (kind.coupled k) fun _ =>
      C.bind (constraint.coupled k) fun _ => C.pure) fun _ => C.bind (Join.Recast.coupledAll rest) fun _ => C.pure

end

theorem FromItem.Recast.coupled {x x' : FromItem Query} (recast : x.Recast c x') :
    C.rel (x.walk w pure) (x'.walk w pure) x' :=
  C.bind (recast.first.coupled k) fun _ => C.bind (Join.Recast.coupledAll k recast.joins) fun _ => C.pure

theorem SelectItem.Recast.coupled : ∀ {x x' : SelectItem Query}, x.Recast c x' → C.rel (x.walk w) (x'.walk w) x'
  | _, _, .wildcard e | _, _, .qualifiedWildcard e | _, _, .expr e | _, _, .aliased e =>
    C.bind (e.coupled k) fun _ => C.pure

theorem GroupBy.Recast.coupled : ∀ {x x' : GroupBy Query}, x.Recast c x' → C.rel (x.walk w) (x'.walk w) x'
  | _, _, .all _ => C.pure
  | _, _, .exprs items => C.bind (Expr.Recast.coupledAll k items) fun _ => C.pure

theorem Write.Recast.coupled {x x' : Write Query} (recast : x.Recast c x') :
    C.rel (x.walk w pure) (x'.walk w pure) x' := by
  obtain ⟨_, _, _, source, _⟩ := x
  obtain ⟨_, _, _, source', _⟩ := x'
  obtain ⟨_, target, change, item, trailer⟩ := recast
  dsimp only at target change item trailer
  refine C.bind (target.coupled k) fun _ => C.bind (change.coupled k) fun _ => ?_
  cases item with
  | none => exact C.bind C.pure fun _ => C.bind (trailer.coupled k) fun _ => C.pure
  | some item => exact C.bind (item.coupled k) fun _ => C.bind C.pure fun _ => C.bind (trailer.coupled k) fun _ => C.pure

variable [LawfulMonad m]

theorem Select.Recast.coupled {s s' : Select Query} (recast : s.Recast c s') :
    C.rel (s.walk w pure) (s'.walk w pure) s' := by
  obtain ⟨quantifier, items, into, source, views, filter, groupBy, distribution, having', windows, qualify, trailer⟩ :=
    recast
  exact C.bind (quantifier.coupled k) fun _ => C.bind (C.mapM (SelectItem.Recast.coupled k) items) fun _ =>
    C.bind (C.mapM (FromItem.Recast.coupled k) source) fun _ => C.bind (views.coupled k) fun _ =>
    C.bind (coupledOption k filter) fun _ => C.bind (groupBy.coupled k) fun _ =>
    C.bind (distribution.coupled k) fun _ => C.bind (coupledOption k having') fun _ =>
    C.bind (windows.coupled k) fun _ => C.bind (coupledOption k qualify) fun _ =>
    C.bind (trailer.coupled k) fun _ => C.pure

theorem Body.Recast.coupled : ∀ {x x' : Body Query}, x.Recast c x' → C.rel (x.walk w pure) (x'.walk w pure) x'
  | _, _, .select s => C.bind (s.coupled k) fun _ => C.pure
  | _, _, .query q => C.bind (k.query q) fun _ => C.pure
  | _, _, .setOp left right =>
    C.bind (Body.Recast.coupled left) fun _ => C.bind (Body.Recast.coupled right) fun _ => C.pure
  | _, _, .values rows => C.bind (C.mapM (Expr.Recast.coupledAll k) rows) fun _ => C.pure
  | _, _, .table _ => C.pure
  | _, _, .write b => C.bind (b.coupled k) fun _ => C.pure

theorem Query.Level.coupled {q q' : Query} (level : q.Level c q') : C.rel (q.walk w pure) (q'.walk w pure) q' := by
  obtain ⟨recursive, ctes, body, orderBy, limit, trailer⟩ := q'
  have entry {x x' : Cte Query} (recast : x.Recast c x') :
      C.rel (do return { x with query := ← w.query x.query }) (do return { x' with query := ← w.query x'.query }) x' :=
    C.bind (k.query recast.query) fun _ => C.pure
  have order {x x' : OrderItem Query} (recast : x.Recast c x') : C.rel (x.walk w) (x'.walk w) x' :=
    C.bind (recast.expr.coupled k) fun _ => C.pure
  exact C.bind (C.mapM entry level.ctes) fun _ => C.bind (level.body.coupled k) fun _ =>
    C.bind (C.mapM order level.orderBy) fun _ => C.bind (coupledOption k level.limit) fun _ =>
    C.bind (level.trailer.coupled k) fun _ => C.pure

omit k

theorem Query.RecastAt.coupled {column call : Path → Path → Prop} {e : Edit m} (relation : e.relation = pure)
    (k : ∀ {sub : Query → Query → Prop} {nested}, (∀ {q q'}, sub q q' → C.rel (nested q) (nested q') q') →
      C.Keeps ⟨column, call, sub⟩ (e.walk nested)) :
    ∀ {n : Nat} {q q' : Query}, q.RecastAt column call n q' → C.rel (q.editAt e n) (q'.editAt e n) q'
  | 0, _, _, _ => C.pure
  | n + 1, _, _, level => by
    rw [Query.editAt, Query.editAt, relation]
    exact Query.Level.coupled (k (Query.RecastAt.coupled relation k)) level

end Coupling

end SemanticLayer.Sql
