import SemanticLayer.Proofs.Fields

/-! # Outlines

What is left of an expression when nested queries are taken out and names are cut down to their last parts.
An expression with the same outline as another one, with names and queries that correspond one by one, has been
written over it place by place. Relations and the clauses of a SELECT are compared in the same way.
-/

namespace SemanticLayer

open Sql List

namespace Sql

def Query.blank : Query := { body := .table "" }

/-- Takes nested queries out and cuts every name down to its last part, without quotes. -/
def Expr.Walk.outline : Expr.Walk Id Query Query where
  ident name := Expr.ident { value := name.value }
  path parts := Expr.ident { value := DottedName.suffix parts.values }
  call name := name
  query _ := Query.blank

/-- An expression written over another one: the outline is the same, and names and queries correspond. -/
structure Expr.Over (renamed : Path → Path → Prop) (related : Query → Query → Prop) (e e' : Expr Query) : Prop extends
    e.Renamed renamed related e' where
  same : e'.walk .outline = e.walk .outline

section Expressions

variable {m : Type → Type} [Monad m] [LawfulMonad m] {J : Judgement m} {w : Expr.Walk m Query Query}
  {renamed renamed' renamed'' : Path → Path → Prop} {related related' related'' : Query → Query → Prop}

theorem Expr.over_path {parts parts' : Path} (h : renamed parts parts')
    (same : DottedName.suffix parts'.values = DottedName.suffix parts.values) :
    (Expr.path parts).Over renamed related (.path parts') :=
  ⟨Expr.renamed_path h, congrArg (fun value => (Expr.ident { value } : Id (Expr Query))) same⟩

theorem Expr.Over.comp {e e' e'' : Expr Query} (first : e.Over renamed related e')
    (second : e'.Over renamed' related' e'') (names : ∀ n n' n'', renamed n n' → renamed' n' n'' → renamed'' n n'')
    (queries : ∀ x x' x'', related x x' → related' x' x'' → related'' x x'') : e.Over renamed'' related'' e'' :=
  ⟨⟨forall₂_compose names first.names second.names, forall₂_compose queries first.queries second.queries⟩,
    second.same.trans first.same⟩

theorem Expr.Over.refl (same : ∀ name, renamed name name) (unchanged : ∀ x, related x x) (e : Expr Query) :
    e.Over renamed related e :=
  ⟨.refl same unchanged e, rfl⟩

theorem Expr.Over.same_all {l l' : List (Expr Query)} (pairs : Forall₂ (Expr.Over renamed related) l l') :
    Expr.walk.walkAll .outline l' = Expr.walk.walkAll .outline l := by
  induction pairs with
  | nil => rfl
  | cons first _ ih => rw [Expr.walk.walkAll, Expr.walk.walkAll, first.same, ih]

theorem Expr.Over.congruence {g : Path → Path} (calls : ∀ name, g name = name) :
    Expr.Congruence g related (Expr.Over renamed related) where
  literal value := ⟨Renamed.congruence.literal (g := g) value, rfl⟩
  binary first second := ⟨Renamed.congruence.binary (g := g) first.toRenamed second.toRenamed,
    by rw [Expr.walk, Expr.walk, first.same, second.same]⟩
  nested h := ⟨Renamed.congruence.nested (g := g) h.toRenamed, by rw [Expr.walk, Expr.walk, h.same]⟩
  call pairs := ⟨Renamed.congruence.call (pairs.imp fun _ _ h => h.toRenamed),
    by rw [Expr.walk, Expr.walk, same_all pairs, calls]⟩
  form pairs := ⟨Renamed.congruence.form (g := g) (pairs.imp fun _ _ h => h.toRenamed),
    by rw [Expr.walk, Expr.walk, same_all pairs]⟩
  query h := ⟨Renamed.congruence.query (g := g) h, rfl⟩

/-- What a walk does with the names and the queries of an expression, it does with the expression. -/
theorem Expr.walk_over (calls : ∀ name, w.call name = name)
    (bare : ∀ name, J.holds (w.ident name) ((Expr.ident name).Over renamed related)) (e : Expr Query)
    (dotted : ∀ parts ∈ e.paths, J.holds (w.path parts) ((Expr.path parts).Over renamed related))
    (inside : ∀ q ∈ e.queries, J.holds (w.query q) (related q)) : J.holds (e.walk w) (e.Over renamed related) :=
  Expr.walk_lifts (Over.congruence calls) bare e dotted inside

end Expressions

/-- A relation written over another one: it has the same name, and its queries correspond. -/
structure Relation.Over (related : Query → Query → Prop) (r r' : Relation Query) : Prop where
  same : r'.walk .outline pure = r.walk .outline pure
  queries : Forall₂ related r.queries r'.queries
  named : relationName? r' = relationName? r

def Join.relation : Join Query → Relation Query
  | .mk _ _ relation _ => relation

/-- Joins written over others. -/
structure Join.OverAll (related : Query → Query → Prop) (js js' : List (Join Query)) : Prop where
  same : Join.walkAll .outline pure js' = Join.walkAll .outline pure js
  queries : Forall₂ related (Join.queriesAll js) (Join.queriesAll js')
  named : (js'.map Join.relation).map relationName? = (js.map Join.relation).map relationName?

def FromItem.relations (item : FromItem Query) : List (Relation Query) := item.first :: item.joins.map Join.relation

structure FromItem.Over (related : Query → Query → Prop) (item item' : FromItem Query) : Prop where
  same : item'.walk .outline pure = item.walk .outline pure
  queries : Forall₂ related item.queries item'.queries
  named : item'.relations.map relationName? = item.relations.map relationName?

theorem FromItem.Over.relationNames {related : Query → Query → Prop} {item item' : FromItem Query}
    (outlined : item.Over related item') : relationNames item' = relationNames item := by
  have listed : ∀ item, SemanticLayer.relationNames item = (item.relations.map relationName?).filterMap id := by
    intro item
    rw [filterMap_map]
    rfl
  rw [listed, listed, outlined.named]

section Relations

variable {m : Type → Type} [Monad m] [LawfulMonad m] {J : Judgement m} {nested : Query → m Query}
  {related : Query → Query → Prop}

theorem Expr.keep_over (e : Expr Query) (visits : ∀ q ∈ e.queries, J.holds (nested q) (related q)) :
    J.holds (e.walk { Expr.Walk.keep m Query with query := nested }) (e.Over Eq related) :=
  Expr.walk_over (fun _ => rfl) (fun _ => J.pure ⟨⟨.cons rfl .nil, .nil⟩, rfl⟩) e
    (fun _ _ => J.pure (Expr.over_path rfl rfl)) visits

theorem JoinKind.Matches.same {kind kind' : JoinKind Query} (matched : kind.Matches (Expr.Over Eq related) kind') :
    kind'.walk .outline = kind.walk .outline := by
  cases matched with
  | asOf h => rw [JoinKind.walk, JoinKind.walk, h.same]
  | plain | cross | crossApply | outerApply => rfl

theorem JoinConstraint.Matches.same {constraint constraint' : JoinConstraint Query}
    (matched : constraint.Matches (Expr.Over Eq related) constraint') :
    constraint'.walk .outline = constraint.walk .outline := by
  cases matched with
  | condition h => rw [JoinConstraint.walk, JoinConstraint.walk, h.same]
  | columns | natural | none => rfl

theorem Expr.Over.queries_all {l l' : List (Expr Query)} (pairs : Forall₂ (Expr.Over Eq related) l l') :
    Forall₂ related (Expr.queries.queriesAll l) (Expr.queries.queriesAll l') :=
  (Renamed.all (pairs.imp fun _ _ h => h.toRenamed)).2

theorem Relation.over_congruence : Relation.Congruence (Expr.Over Eq related) related (fun r r' => r' = r)
    (Relation.Over related) (Join.OverAll related) where
  table {_ _ label _ _ _} hints visited := by
    subst visited
    exact ⟨by simp only [Relation.walk, hints.same], hints.queries, by cases label <;> rfl⟩
  function {_ _ _ _ label _ _ _} args hints visited := by
    subst visited
    exact ⟨by simp only [Relation.walk, Expr.Over.same_all args, hints.same],
      rel_append (Expr.Over.queries_all args) hints.queries, by cases label <;> rfl⟩
  derived {_ _ _ label _} query visited := by
    subst visited
    exact ⟨by rw [Relation.walk, Relation.walk]; rfl, .cons query .nil, by cases label <;> rfl⟩
  nested {_ _ _ _ label _} head rest visited := by
    subst visited
    exact ⟨by rw [Relation.walk, Relation.walk, head.same, rest.same], rel_append head.queries rest.queries,
      by cases label <;> rfl⟩
  unnest arrays visited := by
    subst visited
    exact ⟨by rw [Relation.walk, Relation.walk, Expr.Over.same_all arrays], Expr.Over.queries_all arrays, rfl⟩
  pivot head turn visited := by
    subst visited
    exact ⟨by rw [Relation.walk, Relation.walk, head.same, turn.same], rel_append head.queries turn.queries, rfl⟩
  other construct visited := by
    subst visited
    exact ⟨by rw [Relation.walk, Relation.walk, construct.same], construct.queries, rfl⟩
  nil := ⟨rfl, .nil, rfl⟩
  cons kind head constraint rest := by
    have kinds := kind.queries fun _ _ h => h.queries
    have compared := constraint.queries fun _ _ h => h.queries
    exact ⟨by simp only [Join.walkAll, Join.walk, head.same, kind.same, constraint.same, rest.same],
      rel_append (rel_append (rel_append head.queries kinds) compared) rest.queries,
      congrArg₂ cons head.named rest.named⟩

theorem FromItem.keep_over (visits : ∀ q, J.holds (nested q) (related q)) (item : FromItem Query) :
    J.holds (item.walk { Expr.Walk.keep m Query with query := nested } pure) (item.Over related) := by
  refine J.mono (FromItem.walk_lifts Relation.over_congruence ⟨fun e => e.keep_over fun q _ => visits q, visits,
    fun _ => J.pure rfl⟩ item) fun _ ⟨head, rest⟩ => ?_
  exact ⟨by simp only [FromItem.walk, head.same, rest.same], rel_append head.queries rest.queries,
    congrArg₂ cons head.named rest.named⟩

end Relations

end Sql

/-- A place for an expression in the clauses of a SELECT. -/
inductive Place where
  | wildcard
  | qualifiedWildcard (name : Path)
  | item
  | aliased (label : Ident)
  | filter
  | groupKey
  | having
  | qualify
  | order (ascending nullsFirst : Option Bool)
  deriving DecidableEq

/-- A select item as an expression in its place. -/
def Sql.SelectItem.place : SelectItem Query → Place × Expr Query
  | .wildcard options => (.wildcard, options)
  | .qualifiedWildcard name options => (.qualifiedWildcard name, options)
  | .expr e => (.item, e)
  | .aliased e label => (.aliased label, e)

def Sql.GroupBy.bare : GroupBy Query → GroupBy Query
  | .all modifiers => .all modifiers
  | .exprs _ modifiers => .exprs [] modifiers

namespace Clauses

/-- What stands behind the select items, place by place. -/
def laterPlaces (a : Clauses) : List (Place × Expr Query) :=
  a.select.filter.toList.map (Place.filter, ·) ++ a.select.groupBy.exprList.map (Place.groupKey, ·) ++
    a.select.having.toList.map (Place.having, ·) ++ a.select.qualify.toList.map (Place.qualify, ·) ++
    a.orderBy.map fun item => (.order item.ascending item.nullsFirst, item.expr)

/-- The clauses of a SELECT that see its FROM clause, place by place. -/
def places (a : Clauses) : List (Place × Expr Query) := a.select.items.map SelectItem.place ++ a.laterPlaces

/-- A SELECT without its FROM clause and the expressions that see it. -/
def rest (a : Clauses) : Select Query :=
  { a.select with
    items := [], source := [], filter := none, groupBy := a.select.groupBy.bare, having := none, qualify := none }

theorem places_exprs (a : Clauses) : a.places.map (·.2) = a.exprs .written := by
  have items : (a.select.items.map SelectItem.place).map (·.2) =
      a.select.items.flatMap (SelectItem.exprs .written) := by
    rw [map_map, ← flatMap_pure_eq_map]
    congr 1
    funext item
    cases item <;> rfl
  simp only [places, laterPlaces, exprs, Select.exprs, map_append, items, map_map, Function.comp_def,
    map_id', append_assoc]

end Clauses

/-- One expression in the place of another. -/
def Place.Over (r : Expr Query → Expr Query → Prop) (p p' : Place × Expr Query) : Prop := p'.1 = p.1 ∧ r p.2 p'.2

/-- Places written over others, one by one; group keys may be `added`. -/
inductive Place.OverAll (added : Prop) (r : Expr Query → Expr Query → Prop) :
    List (Place × Expr Query) → List (Place × Expr Query) → Prop
  | nil : OverAll added r [] []
  | cons {p p' : Place × Expr Query} {l l' : List (Place × Expr Query)} :
      Place.Over r p p' → OverAll added r l l' → OverAll added r (p :: l) (p' :: l')
  | key {p' : Place × Expr Query} {l l' : List (Place × Expr Query)} :
      added → p'.1 = .groupKey → OverAll added r l l' → OverAll added r l (p' :: l')

/-- The clauses of a SELECT written over those of another one. -/
structure Clauses.Over (added : Prop) (r : Expr Query → Expr Query → Prop) (a a' : Clauses) : Prop where
  places : Place.OverAll added r a.places a'.places
  rest : a'.rest = a.rest

section Over

variable {added : Prop} {r r' r'' : Expr Query → Expr Query → Prop} {l l' l'' m m' : List (Place × Expr Query)}

namespace Place.OverAll

theorem of_forall₂ (pairs : Forall₂ (Place.Over r) l l') : OverAll added r l l' := by
  induction pairs with
  | nil => exact .nil
  | cons first _ ih => exact .cons first ih

theorem forall₂ (outlined : OverAll False r l l') : Forall₂ (Place.Over r) l l' := by
  induction outlined with
  | nil => exact .nil
  | cons first _ ih => exact .cons first ih
  | key none => exact none.elim

theorem append (first : OverAll added r l l') (second : OverAll added r m m') :
    OverAll added r (l ++ m) (l' ++ m') := by
  induction first with
  | nil => exact second
  | cons here _ ih => exact .cons here ih
  | key more key _ ih => exact .key more key ih

theorem comp (compose : ∀ e e' e'', r e e' → r' e' e'' → r'' e e'') (first : OverAll added r l l')
    (second : OverAll added r' l' l'') : OverAll added r'' l l'' := by
  induction second generalizing l with
  | nil =>
    cases first
    exact .nil
  | cons here _ ih =>
    cases first with
    | cons before rest => exact .cons ⟨here.1.trans before.1, compose _ _ _ before.2 here.2⟩ (ih rest)
    | key more key rest => exact .key more (here.1.trans key) (ih rest)
  | key more key _ ih => exact .key more key (ih first)

theorem back (outlined : OverAll added r l l') : ∀ p' ∈ l', p'.1 = .groupKey ∨ ∃ p ∈ l, p'.1 = p.1 := by
  induction outlined with
  | nil => simp
  | cons here _ ih => grind [Place.Over]
  | key _ key _ ih => grind

end Place.OverAll

theorem Clauses.Over.comp {a a' a'' : Clauses} (first : a.Over added r a') (second : a'.Over added r' a'')
    (compose : ∀ e e' e'', r e e' → r' e' e'' → r'' e e'') : a.Over added r'' a'' :=
  ⟨first.places.comp compose second.places, second.rest.trans first.rest⟩

theorem Clauses.Over.refl (same : ∀ e, r e e) (a : Clauses) : a.Over added r a :=
  ⟨.of_forall₂ (forall₂_same.mpr fun p _ => ⟨rfl, same p.2⟩), rfl⟩

theorem Clauses.Over.order_nil {a a' : Clauses} (outlined : a.Over added r a') (none : a.orderBy = []) :
    a'.orderBy = [] := by
  cases ordered : a'.orderBy with
  | nil => rfl
  | cons item rest =>
    have listed : (Place.order item.ascending item.nullsFirst, item.expr) ∈ a'.places := by
      simp [Clauses.places, Clauses.laterPlaces, ordered]
    rcases outlined.places.back _ listed with key | ⟨p, member, same⟩
    · cases key
    · simp only [Clauses.places, Clauses.laterPlaces, none, mem_append, mem_map] at member
      rcases member with ⟨item, _, rfl⟩ | _
      · cases item <;> cases same
      · grind

theorem Clauses.Over.exprs {a a' : Clauses} (outlined : a.Over False r a') :
    Forall₂ r (a.exprs .written) (a'.exprs .written) := by
  rw [← places_exprs, ← places_exprs]
  exact rel_map (fun _ _ h => h.2) outlined.places.forall₂

end Over

/-- The first wildcard written out as one for each relation. -/
def spreadPlaces (relations : List String) : List (Place × Expr Query) → List (Place × Expr Query)
  | [] => []
  | (.wildcard, options) :: rest => relations.map (fun name => (.qualifiedWildcard [.ofName name], options)) ++ rest
  | p :: rest => p :: spreadPlaces relations rest

theorem spreadPlaces_eq_self (relations : List String) : ∀ {l : List (Place × Expr Query)}, (∀ p ∈ l, p.1 ≠ .wildcard) →
    spreadPlaces relations l = l
  | [], _ => rfl
  | (place, e) :: l, other => by
    obtain ⟨first, rest⟩ := forall_mem_cons.mp other
    cases place with
    | wildcard => exact absurd rfl first
    | _ => exact congrArg _ (spreadPlaces_eq_self relations rest)

theorem Clauses.places_spread (relations : List String) (a : Clauses) :
    (a.spread relations).places = spreadPlaces relations a.places := by
  have later : ∀ p ∈ a.laterPlaces, p.1 ≠ .wildcard := by
    unfold laterPlaces
    grind
  change (spreadWildcard relations a.select.items).map SelectItem.place ++ a.laterPlaces =
    spreadPlaces relations (a.select.items.map SelectItem.place ++ a.laterPlaces)
  induction a.select.items with
  | nil => exact (spreadPlaces_eq_self relations later).symm
  | cons item rest ih =>
    cases item with
    | wildcard => simp [spreadWildcard, SelectItem.place, spreadPlaces]
    | qualifiedWildcard | expr | aliased => exact congrArg _ ih

theorem Clauses.Over.spread {added : Prop} {r : Expr Query → Expr Query → Prop} {a a' : Clauses}
    (outlined : a.Over added r a') (relations : List String) :
    (a.spread relations).Over added r (a'.spread relations) := by
  refine ⟨?_, outlined.rest⟩
  have places := outlined.places
  rw [places_spread, places_spread]
  generalize a.places = l, a'.places = l' at places ⊢
  induction places with
  | nil => exact .nil
  | @cons p p' _ _ here rest ih =>
    obtain ⟨_, e⟩ := p
    obtain ⟨place, e'⟩ := p'
    obtain ⟨rfl, related⟩ := here
    cases place with
    | wildcard =>
      refine .append (.of_forall₂ ?_) rest
      rw [forall₂_map_left_iff, forall₂_map_right_iff]
      exact forall₂_same.mpr fun _ _ => ⟨rfl, related⟩
    | _ => exact .cons ⟨rfl, related⟩ ih
  | @key p' _ _ more key _ ih =>
    obtain ⟨_, e'⟩ := p'
    obtain rfl := key
    exact .key more rfl ih

section Walking

variable {m : Type → Type} [Monad m] [LawfulMonad m] {J : Judgement m} {w : Expr.Walk m Query Query}
  {r : Expr Query → Expr Query → Prop}

def Sql.OrderItem.Over (r : Expr Query → Expr Query → Prop) (item item' : OrderItem Query) : Prop :=
  r item.expr item'.expr ∧ item' = { item with expr := item'.expr }

theorem Clauses.order_refl (same : ∀ e, r e e) (items : List (OrderItem Query)) :
    Forall₂ (OrderItem.Over r) items items :=
  forall₂_same.mpr fun item _ => ⟨same item.expr, rfl⟩

theorem Clauses.walkOrder_over {items : List (OrderItem Query)}
    (each : ∀ item ∈ items, J.holds (item.expr.walk w) (r item.expr)) :
    J.holds (items.mapM (OrderItem.walk w)) (Forall₂ (OrderItem.Over r) items) :=
  J.mapM_mem fun item member => J.bind (each item member) fun _ => J.pure fun h => ⟨h, rfl⟩

/-- What a walk does with the expressions of a SELECT, it does place by place. -/
theorem Clauses.walkSelect_over {s : Select Query} (each : ∀ e ∈ s.exprs .written, J.holds (e.walk w) (r e)) :
    J.holds (walkSelect w s) fun s' => s'.source = s.source ∧ ∀ {o o'},
      Forall₂ (OrderItem.Over r) o o' → ∀ {added}, Over added r ⟨s, o⟩ ⟨s', o'⟩ := by
  simp only [Select.exprs, forall_mem_append, forall_mem_flatMap] at each
  obtain ⟨⟨⟨⟨items, filter⟩, groupBy⟩, having⟩, qualify⟩ := each
  have item : ∀ item ∈ s.items, J.holds (item.walk w) fun item' => Place.Over r item.place item'.place := by
    intro item member
    have here := items item member
    cases item with
    | wildcard e | qualifiedWildcard _ e | expr e | aliased e _ =>
      exact J.bind (here e mem_cons_self) fun _ => J.pure fun h => ⟨rfl, h⟩
  have keys : J.holds (s.groupBy.walk w) fun g =>
      g.bare = s.groupBy.bare ∧ Forall₂ r s.groupBy.exprList g.exprList := by
    generalize s.groupBy = g at groupBy
    cases g with
    | all => exact J.pure ⟨rfl, .nil⟩
    | exprs =>
      rw [GroupBy.walk]
      exact J.bind (Expr.walkAll_holds groupBy) fun _ => J.pure fun pairs => ⟨rfl, pairs⟩
  have placed : ∀ (place : Place) {l l' : List (Expr Query)}, Forall₂ r l l' →
      Forall₂ (Place.Over r) (l.map (place, ·)) (l'.map (place, ·)) :=
    fun place _ _ pairs => rel_map (fun _ _ h => ⟨rfl, h⟩) pairs
  unfold walkSelect
  refine J.bind (J.mapM_mem item) fun _ => J.bind (walkOption_lifts filter) fun _ => J.bind keys fun _ =>
    J.bind (walkOption_lifts having) fun _ => J.bind (walkOption_lifts qualify) fun _ => J.pure ?_
  intro qualify having groupBy filter items
  refine ⟨rfl, fun ordered _ => ⟨.of_forall₂ (rel_append (R := Place.Over r) ?_ (rel_append
    (rel_append (rel_append (rel_append (placed _ filter) (placed _ groupBy.2)) (placed _ having))
      (placed _ qualify)) ?_)), ?_⟩⟩
  · exact rel_map (R := fun item item' => Place.Over r item.place item'.place) (fun _ _ h => h) items
  · refine rel_map ?_ ordered
    rintro _ _ ⟨h, same⟩
    rw [same]
    exact ⟨rfl, h⟩
  · simp only [rest, groupBy.1]

theorem Clauses.walk_over (a : Clauses) (each : ∀ e ∈ a.exprs .written, J.holds (e.walk w) (r e)) :
    J.holds (a.walk w) fun a' => a'.select.source = a.select.source ∧ ∀ {added}, a.Over added r a' := by
  obtain ⟨selected, ordered⟩ := forall_mem_append.mp each
  unfold walk
  refine J.bind (walkSelect_over selected) fun _ => J.bind (walkOrder_over fun item member =>
    ordered _ (mem_map_of_mem member)) fun _ => J.pure fun order select => ⟨select.1, select.2 order⟩

end Walking

end SemanticLayer
