import SemanticLayer.Proofs.Depth
import SemanticLayer.Proofs.Edits
import SemanticLayer.Proofs.Renaming

/-! # Tables under other names

The walk that gives the tables of a query other names, part by part. It changes no name in an
expression and no query besides the names of its tables.
-/

namespace SemanticLayer.Sql

open List

section Expressions

variable (g : Query → Query)

/-- The walk that puts other queries in the place of the nested ones. -/
def Expr.Walk.nesting : Expr.Walk Id Query Query := { Expr.Walk.keep Id Query with query := fun q => g q }

@[simp] theorem Expr.Walk.nesting_query (q : Query) : Id.run ((nesting g).query q) = g q := rfl

def Expr.mapQueries (e : Expr Query) : Expr Query := Id.run (e.walk (.nesting g))

theorem Expr.walkAll_nesting (l : List (Expr Query)) :
    Id.run (Expr.walk.walkAll (.nesting g) l) = l.map (Expr.mapQueries g) := by
  induction l with
  | nil => rfl
  | cons e l ih =>
    rw [map_cons, ← ih]
    simp [Expr.walk.walkAll, mapQueries]

theorem Expr.mapQueries_renamed (e : Expr Query) : e.Renamed Eq (fun x x' => g x = x') (e.mapQueries g) := by
  have keeps : (Expr.Walk.nesting g).Keeps Judgement.id fun x x' => g x = x' :=
    Expr.Walk.keep_keeps fun _ => rfl
  exact Expr.walk_renamed keeps.renames e

@[simp] theorem Expr.names_mapQueries (e : Expr Query) : (e.mapQueries g).names = e.names := by
  have pairs := (e.mapQueries_renamed g).names
  rw [forall₂_eq_eq_eq] at pairs
  exact pairs.symm

@[simp] theorem Expr.queries_mapQueries (e : Expr Query) : (e.mapQueries g).queries = e.queries.map g := by
  have pairs := forall₂_map_left_iff.mpr (e.mapQueries_renamed g).queries
  rw [forall₂_eq_eq_eq] at pairs
  exact pairs.symm

@[simp] theorem Expr.name?_mapQueries (e : Expr Query) : (e.mapQueries g).name? = e.name? := by
  cases e <;> rfl

theorem Expr.queriesAll_map (l : List (Expr Query)) :
    Expr.queries.queriesAll (l.map (Expr.mapQueries g)) = (Expr.queries.queriesAll l).map g := by
  simp [Expr.queriesAll_eq_flatMap, flatMap_map, map_flatMap]

end Expressions

theorem Reach.aside_map {α β : Type} (reach : Reach) (h : α → β) (l : List α) :
    reach.aside (l.map h) = (reach.aside l).map h := by
  cases reach <;> rfl

section Relations

variable (f : Path → Path) (g : Query → Query)

def Relation.mapTable : Relation Query → Relation Query
  | .table name args ordinality label hints => .table (f name) args ordinality label hints
  | r => r

/-- A relation with its tables under other names and other queries in the place of the nested ones. -/
def Relation.mapTables (r : Relation Query) : Relation Query :=
  Id.run (r.walk (.nesting g) fun r => r.mapTable f)

def Join.mapTablesAll (js : List (Join Query)) : List (Join Query) :=
  Id.run (Join.walkAll (.nesting g) (fun r => r.mapTable f) js)

def JoinKind.mapQueries (kind : JoinKind Query) : JoinKind Query := Id.run (kind.walk (.nesting g))

def JoinConstraint.mapQueries (constraint : JoinConstraint Query) : JoinConstraint Query :=
  Id.run (constraint.walk (.nesting g))

@[simp] theorem Relation.mapTables_table (name : Path) (ordinality : Bool) (label : Option Alias)
    (hints : Expr Query) : (Relation.table name none ordinality label hints).mapTables f g =
      .table (f name) none ordinality label (hints.mapQueries g) := by
  simp [mapTables, Relation.walk]
  rfl

@[simp] theorem Relation.mapTables_call (name : Path) (args : List (Expr Query)) (ordinality : Bool)
    (label : Option Alias) (hints : Expr Query) :
    (Relation.table name (some args) ordinality label hints).mapTables f g =
      .table (f name) (some (args.map (Expr.mapQueries g))) ordinality label (hints.mapQueries g) := by
  simp [mapTables, Relation.walk, ← Expr.walkAll_nesting]
  rfl

@[simp] theorem Relation.mapTables_derived (lateral : Bool) (query : Query) (label : Option Alias) :
    (Relation.derived lateral query label).mapTables f g = .derived lateral (g query) label := by
  simp [mapTables, Relation.walk]
  rfl

@[simp] theorem Relation.mapTables_nested (first : Relation Query) (joins : List (Join Query))
    (label : Option Alias) : (Relation.nested first joins label).mapTables f g =
      .nested (first.mapTables f g) (Join.mapTablesAll f g joins) label := by
  simp [mapTables, Relation.walk]
  rfl

@[simp] theorem Relation.mapTables_unnest (arrays : List (Expr Query)) (suffix : String) :
    (Relation.unnest arrays suffix).mapTables f g = .unnest (arrays.map (Expr.mapQueries g)) suffix := by
  simp [mapTables, Relation.walk, ← Expr.walkAll_nesting]
  rfl

@[simp] theorem Relation.mapTables_pivot (source : Relation Query) (turn : Expr Query) :
    (Relation.pivot source turn).mapTables f g = .pivot (source.mapTables f g) (turn.mapQueries g) := by
  simp [mapTables, Relation.walk]
  rfl

@[simp] theorem Relation.mapTables_other (construct : Expr Query) :
    (Relation.other construct).mapTables f g = .other (construct.mapQueries g) := by
  simp [mapTables, Relation.walk]
  rfl

@[simp] theorem Join.mapTablesAll_nil : Join.mapTablesAll f g [] = [] := by
  simp [mapTablesAll, Join.walkAll]

@[simp] theorem Join.mapTablesAll_cons (isGlobal : Bool) (kind : JoinKind Query) (relation : Relation Query)
    (constraint : JoinConstraint Query) (rest : List (Join Query)) :
    Join.mapTablesAll f g (.mk isGlobal kind relation constraint :: rest) =
      .mk isGlobal (kind.mapQueries g) (relation.mapTables f g) (constraint.mapQueries g) ::
        Join.mapTablesAll f g rest := by
  simp [mapTablesAll, Join.walkAll, Join.walk, Relation.mapTables, JoinKind.mapQueries, JoinConstraint.mapQueries]

@[simp] theorem JoinKind.queries_mapQueries (kind : JoinKind Query) :
    (kind.mapQueries g).queries = kind.queries.map g := by
  cases kind with
  | asOf condition => exact condition.queries_mapQueries g
  | plain | cross | crossApply | outerApply => rfl

@[simp] theorem JoinConstraint.queries_mapQueries (constraint : JoinConstraint Query) :
    (constraint.mapQueries g).queries = constraint.queries.map g := by
  cases constraint with
  | condition e => exact e.queries_mapQueries g
  | columns | natural | none => rfl

mutual

theorem Relation.inner_mapTables (reach : Reach) : ∀ r : Relation Query,
    (r.mapTables f g).inner reach = (r.inner reach).map g
  | .table name none ordinality label hints => by
    simp [Relation.inner, argumentQueries, ← Reach.aside_map]
  | .table name (some args) ordinality label hints => by
    simp [Relation.inner, argumentQueries, ← Reach.aside_map, Expr.queriesAll_map]
  | .derived lateral query label => by simp [Relation.inner]
  | .nested first joins label => by
    simp [Relation.inner, Relation.inner_mapTables reach first, Join.innerAll_mapTables reach joins]
  | .unnest arrays suffix => by simp [Relation.inner, Expr.queriesAll_map]
  | .pivot source turn => by
    simp [Relation.inner, ← Reach.aside_map, Relation.inner_mapTables reach source]
  | .other construct => by simp [Relation.inner, ← Reach.aside_map]

theorem Join.innerAll_mapTables (reach : Reach) : ∀ js : List (Join Query),
    Join.innerAll reach (Join.mapTablesAll f g js) = (Join.innerAll reach js).map g
  | [] => by simp [Join.innerAll]
  | .mk isGlobal kind relation constraint :: rest => by
    simp [Join.innerAll, ← Reach.aside_map, Relation.inner_mapTables reach relation, Join.innerAll_mapTables reach rest]

end

def FromItem.mapTables (item : FromItem Query) : FromItem Query :=
  ⟨item.first.mapTables f g, Join.mapTablesAll f g item.joins⟩

theorem FromItem.inner_mapTables (reach : Reach) (item : FromItem Query) :
    (item.mapTables f g).inner reach = (item.inner reach).map g := by
  simp [FromItem.inner, FromItem.mapTables, Relation.inner_mapTables, Join.innerAll_mapTables]

end Relations

section Selects

variable (f : Path → Path) (g : Query → Query)

def SelectItem.mapQueries : SelectItem Query → SelectItem Query
  | .wildcard options => .wildcard (options.mapQueries g)
  | .qualifiedWildcard name options => .qualifiedWildcard name (options.mapQueries g)
  | .expr e => .expr (e.mapQueries g)
  | .aliased e label => .aliased (e.mapQueries g) label

def GroupBy.mapQueries : GroupBy Query → GroupBy Query
  | .all modifiers => .all modifiers
  | .exprs items modifiers => .exprs (items.map (Expr.mapQueries g)) modifiers

def Select.mapTables (s : Select Query) : Select Query where
  quantifier := s.quantifier.mapQueries g
  items := s.items.map (SelectItem.mapQueries g)
  into := s.into
  source := s.source.map (FromItem.mapTables f g)
  views := s.views.mapQueries g
  filter := s.filter.map (Expr.mapQueries g)
  groupBy := s.groupBy.mapQueries g
  distribution := s.distribution.mapQueries g
  having := s.having.map (Expr.mapQueries g)
  windows := s.windows.mapQueries g
  qualify := s.qualify.map (Expr.mapQueries g)
  trailer := s.trailer.mapQueries g

def Write.mapTables (w : Write Query) : Write Query where
  start := w.start
  target := w.target.mapTables f g
  change := w.change.mapQueries g
  source := w.source.map (FromItem.mapTables f g)
  trailer := w.trailer.mapQueries g

def Body.mapTables : Body Query → Body Query
  | .select s => .select (s.mapTables f g)
  | .query q => .query (g q)
  | .setOp word left right => .setOp word left.mapTables right.mapTables
  | .values rows explicitRow => .values (rows.map (map (Expr.mapQueries g))) explicitRow
  | .table name => .table name
  | .write w => .write (w.mapTables f g)

theorem SelectItem.walk_nesting (item : SelectItem Query) : Id.run (item.walk (.nesting g)) = item.mapQueries g := by
  cases item <;> rfl

theorem GroupBy.walk_nesting (groupBy : GroupBy Query) : Id.run (groupBy.walk (.nesting g)) = groupBy.mapQueries g := by
  cases groupBy with
  | all => rfl
  | exprs items modifiers => simp [GroupBy.walk, GroupBy.mapQueries, Expr.walkAll_nesting]

theorem walkOption_nesting (e : Option (Expr Query)) :
    Id.run (walkOption (.nesting g) e) = e.map (Expr.mapQueries g) := by
  cases e <;> rfl

theorem FromItem.walk_nesting (item : FromItem Query) :
    Id.run (item.walk (.nesting g) fun r => r.mapTable f) = item.mapTables f g := rfl

theorem Select.walk_nesting (s : Select Query) :
    Id.run (s.walk (.nesting g) fun r => r.mapTable f) = s.mapTables f g := by
  simp [Select.walk, Select.mapTables, walkOption_nesting, GroupBy.walk_nesting, SelectItem.walk_nesting,
    FromItem.walk_nesting, Expr.mapQueries]

theorem Write.walk_nesting (w : Write Query) :
    Id.run (w.walk (.nesting g) fun r => r.mapTable f) = w.mapTables f g := by
  cases written : w.source with
  | none | some =>
    simp [Write.walk, Write.mapTables, FromItem.walk_nesting, Expr.mapQueries, written]

theorem Body.walk_nesting (b : Body Query) : Id.run (b.walk (.nesting g) fun r => r.mapTable f) = b.mapTables f g := by
  induction b with
  | select s => simp [Body.walk, Body.mapTables, Select.walk_nesting]
  | query q => rfl
  | setOp word left right first second => simp [Body.walk, Body.mapTables, first, second]
  | values rows explicitRow => simp [Body.walk, Body.mapTables, Expr.walkAll_nesting]
  | table name => rfl
  | write w => simp [Body.walk, Body.mapTables, Write.walk_nesting]

end Selects

section Queries

variable (f : Path → Path)

/-- A query with its tables under other names, nested queries included. -/
def Query.mapTables (q : Query) : Query :=
  Id.run (q.edit { Edit.keep Id with relation := fun r => r.mapTable f })

theorem Query.mapTables_eq (q : Query) :
    q.mapTables f = Id.run (q.walk (.nesting (Query.mapTables f)) fun r => r.mapTable f) := by
  obtain ⟨n, height⟩ := Query.exists_succ (Nat.le_refl q.height)
  let e : Edit Id := { Edit.keep Id with relation := fun r => r.mapTable f }
  have agree : ∀ x ∈ q.queries, Query.editAt e n x = Query.edit e x := by
    intro x member
    have lower := Query.height_lt_queries member
    exact Query.editAt_eq_edit e n x (by omega)
  rw [Query.mapTables, Query.edit, height, Query.editAt]
  exact congrArg Id.run (Query.walk_congr (w := e.walk pure) q agree)

theorem Query.mapTables_parts (q : Query) : q.mapTables f =
    { recursive := q.recursive
      ctes := q.ctes.map fun cte => { cte with query := cte.query.mapTables f }
      body := q.body.mapTables f (Query.mapTables f)
      orderBy := q.orderBy.map fun item => { item with expr := item.expr.mapQueries (Query.mapTables f) }
      limit := q.limit.map (Expr.mapQueries (Query.mapTables f))
      trailer := q.trailer.mapQueries (Query.mapTables f) } := by
  rw [Query.mapTables_eq]
  simp [Query.walk, Body.walk_nesting, walkOption_nesting, OrderItem.walk, Expr.mapQueries]

theorem Query.ctes_mapTables (q : Query) :
    (q.mapTables f).ctes = q.ctes.map fun cte => { cte with query := cte.query.mapTables f } := by
  rw [Query.mapTables_parts]

theorem Query.body_mapTables (q : Query) : (q.mapTables f).body = q.body.mapTables f (Query.mapTables f) := by
  rw [Query.mapTables_parts]

theorem Query.names_mapTables (q : Query) : With.names (q.mapTables f) = With.names q := by
  simp [With.names, Query.ctes_mapTables, With.nameOf]

end Queries

section Inner

variable (f : Path → Path) (g : Query → Query) (reach : Reach)

theorem SelectItem.inner_mapQueries (item : SelectItem Query) :
    (item.mapQueries g).inner reach = (item.inner reach).map g := by
  cases item <;> simp [SelectItem.mapQueries, SelectItem.inner, ← Reach.aside_map]

theorem GroupBy.queries_mapQueries (groupBy : GroupBy Query) :
    (groupBy.mapQueries g).queries = groupBy.queries.map g := by
  cases groupBy <;> simp [GroupBy.mapQueries, GroupBy.queries, flatMap_map, map_flatMap]

theorem queriesOf_map (e : Option (Expr Query)) : queriesOf (e.map (Expr.mapQueries g)) = (queriesOf e).map g := by
  cases e <;> simp [queriesOf]

theorem Select.inner_mapTables (s : Select Query) : (s.mapTables f g).inner reach = (s.inner reach).map g := by
  simp [Select.inner, Select.mapTables, Select.clauseQueries, Select.otherQueries, ← Reach.aside_map,
    flatMap_map, map_flatMap, FromItem.inner_mapTables, SelectItem.inner_mapQueries,
    GroupBy.queries_mapQueries, queriesOf_map]

theorem Body.inner_mapTables (b : Body Query) : (b.mapTables f g).inner reach = (b.inner reach).map g := by
  induction b with
  | select s => exact s.inner_mapTables f g reach
  | query q => rfl
  | setOp word left right first second => simp [Body.mapTables, Body.inner, first, second]
  | values rows explicitRow => simp [Body.mapTables, Body.inner, flatMap_map, map_flatMap]
  | table name => rfl
  | write w =>
    cases written : w.source with
    | none | some =>
      simp [Body.mapTables, Body.inner, Write.mapTables, ← Reach.aside_map, FromItem.inner_mapTables, written]

theorem Query.inner_mapTables (q : Query) : (q.mapTables f).inner reach = (q.inner reach).map (Query.mapTables f) := by
  rw [Query.mapTables_parts]
  simp [Query.inner, Body.inner_mapTables, ← Reach.aside_map, queriesOf_map, orderQueries, flatMap_map, map_flatMap]

end Inner

section Mentions

variable (f : Path → Path) (g : Query → Query)

mutual

theorem Relation.mentions_mapTables : ∀ r : Relation Query,
    (r.mapTables f g).mentions = r.mentions.map (Mention.mapName f)
  | .table name none ordinality label hints => by simp [Relation.mentions, Mention.mapName]
  | .table name (some args) ordinality label hints => by
    simp [Relation.mentions, Mention.mapName, Function.comp_def]
  | .nested first joins label => by
    simp [Relation.mentions, Relation.mentions_mapTables first, Join.mentionsAll_mapTables joins]
  | .pivot source turn => by simp [Relation.mentions, Relation.mentions_mapTables source]
  | .derived lateral query label => by simp [Relation.mentions]
  | .unnest arrays suffix => by simp [Relation.mentions]
  | .other construct => by simp [Relation.mentions]

theorem Join.mentionsAll_mapTables : ∀ js : List (Join Query),
    Join.mentionsAll (Join.mapTablesAll f g js) = (Join.mentionsAll js).map (Mention.mapName f)
  | [] => by simp [Join.mentionsAll]
  | .mk isGlobal kind relation constraint :: rest => by
    simp [Join.mentionsAll, Relation.mentions_mapTables relation, Join.mentionsAll_mapTables rest]

end

theorem FromItem.mentions_mapTables (item : FromItem Query) :
    (item.mapTables f g).mentions = item.mentions.map (Mention.mapName f) := by
  simp [FromItem.mentions, FromItem.mapTables, Relation.mentions_mapTables, Join.mentionsAll_mapTables]

theorem Body.mentions_mapTables (b : Body Query) : (b.mapTables f g).mentions = b.mentions.map (Mention.mapName f) := by
  induction b with
  | select s =>
    simp [Body.mentions, Body.mapTables, Select.mapTables, flatMap_map, map_flatMap, FromItem.mentions_mapTables]
  | setOp word left right first second => simp [Body.mentions, Body.mapTables, first, second]
  | query | values | table => rfl
  | write w =>
    cases written : w.source with
    | none | some =>
      simp [Body.mentions, Body.mapTables, Write.mapTables, FromItem.mentions_mapTables, written]

theorem Query.mapTables_follows (reach : Reach) (q : Query) :
    q.Follows ⟨fun m m' => m' = m.mapName f, fun _ => False, fun _ => False⟩ reach (q.mapTables f) := by
  refine Query.Alike.follows ⟨by rw [mapTables_parts], ?_, .of_pairs ?_, .of_pairs ?_⟩
  · rw [ctes_mapTables]
    refine forall₂_map_right_iff.mpr (forall₂_same.mpr fun cte member => ⟨rfl, ?_⟩)
    have := height_lt_ctes member
    exact cte.query.mapTables_follows reach
  · rw [body_mapTables, Body.mentions_mapTables]
    exact forall₂_map_right_iff.mpr (forall₂_same.mpr fun _ _ => rfl)
  · rw [inner_mapTables]
    refine forall₂_map_right_iff.mpr (forall₂_same.mpr fun x member => ?_)
    have := height_lt_inner member
    exact x.mapTables_follows reach
termination_by q.height

/-- A query reads the same under the other names, and sees the same WITH names there. -/
theorem Query.reads_mapTables {reach : Reach} {outer bound : List String} {q : Query} {mention' : Mention} :
    (q.mapTables f).Reads reach outer bound mention' ↔
      ∃ mention, q.Reads reach outer bound mention ∧ mention' = mention.mapName f := by
  obtain ⟨forth, back⟩ := q.mapTables_follows f reach outer bound
  refine ⟨fun reads => (back mention' reads).resolve_right id, ?_⟩
  rintro ⟨mention, reads, rfl⟩
  obtain ⟨_, reads, rfl⟩ := (forth mention reads).resolve_right id
  exact reads

end Mentions

end SemanticLayer.Sql

namespace SemanticLayer

open Sql

/-- Stripping gives the objects of the layer their plain names. -/
theorem Context.strip_eq_mapTables (c : Context) (q : Query) : c.strip q = q.mapTables c.stripName := by
  have tables : (fun r => c.stripRelation r) = fun r => r.mapTable c.stripName := by
    funext r
    cases r with
    | table name args ordinality label hints => exact c.stripRelation_table name args ordinality label hints
    | derived | nested | unnest | pivot | other => rfl
  unfold Context.strip Query.mapTables
  rw [tables]

end SemanticLayer
