import SemanticLayer.Proofs.Tracking

/-! # Walks follow changes

A walk that leaves names alone, relates nested queries, and changes tables by a visitor makes the
change that its visitor makes. Main statement: `Query.walk_alike`, for every judgement of the monad.
-/

namespace SemanticLayer.Sql

variable {m : Type → Type} [Monad m] [LawfulMonad m] {J : Judgement m}

/-- A walk that puts no queries in the place of names and relates nested queries. -/
structure Expr.Walk.Flat (J : Judgement m) (w : Expr.Walk m Query Query)
    (related : Query → Query → Prop) : Prop where
  ident : ∀ name, J.holds (w.ident name) fun e => e.queries = []
  path : ∀ parts, J.holds (w.path parts) fun e => e.queries = []
  query : ∀ q, J.holds (w.query q) (related q)

/-- A walk that leaves names alone and relates nested queries. -/
structure Expr.Walk.Keeps (J : Judgement m) (w : Expr.Walk m Query Query)
    (related : Query → Query → Prop) : Prop where
  ident : ∀ name, J.holds (w.ident name) fun e => e = .ident name
  path : ∀ parts, J.holds (w.path parts) fun e => e = .path parts
  query : ∀ q, J.holds (w.query q) (related q)

theorem Expr.Walk.Keeps.flat {w : Expr.Walk m Query Query} {related : Query → Query → Prop}
    (keeps : w.Keeps J related) : w.Flat J related where
  ident name := J.mono (keeps.ident name) fun _ same => by rw [same, Expr.queries]
  path parts := J.mono (keeps.path parts) fun _ same => by rw [same, Expr.queries]
  query := keeps.query

theorem Expr.Walk.keep_keeps {nested : Query → m Query} {related : Query → Query → Prop}
    (visits : ∀ q, J.holds (nested q) (related q)) :
    Expr.Walk.Keeps J { Expr.Walk.keep m Query with query := nested } related where
  ident name := J.pure (p := fun e => e = Expr.ident name) rfl
  path parts := J.pure (p := fun e => e = Expr.path parts) rfl
  query := visits

def Expr.paths : Expr Query → List Path
  | .path parts => [parts]
  | .binary _ left right => left.paths ++ right.paths
  | .nested inner => inner.paths
  | .call _ _ parts | .form _ parts => pathsAll parts
  | .ident _ | .literal _ | .query _ => []
where
  /-- The dotted names of several expressions. -/
  pathsAll : List (Expr Query) → List Path
    | [] => []
    | part :: rest => part.paths ++ pathsAll rest

theorem Expr.pathsAll_eq_flatMap (l : List (Expr Query)) : Expr.paths.pathsAll l = l.flatMap Expr.paths := by
  induction l with
  | nil => rfl
  | cons e l ih => simp [Expr.paths.pathsAll, ih]

theorem Expr.namesAll_eq_flatMap (l : List (Expr Query)) : Expr.names.namesAll l = l.flatMap Expr.names := by
  induction l with
  | nil => rfl
  | cons e l ih => simp [Expr.names.namesAll, ih]

theorem Expr.paths_subset_names : ∀ e : Expr Query, ∀ name ∈ e.paths, name ∈ e.names
  | .path _, _, member => member
  | .binary _ left right, name, member =>
    List.mem_append.mpr ((List.mem_append.mp member).imp (paths_subset_names left name) (paths_subset_names right name))
  | .nested inner, name, member => paths_subset_names inner name member
  | .call _ _ parts, name, member | .form _ parts, name, member => by
    rw [Expr.paths, pathsAll_eq_flatMap, List.mem_flatMap] at member
    obtain ⟨e, listed, inside⟩ := member
    rw [Expr.names, namesAll_eq_flatMap]
    exact List.mem_flatMap.mpr ⟨e, listed, paths_subset_names e name inside⟩

/-- A relation of expressions that follows from the parts they are built of. Functions may have other names, by `g`. -/
structure Expr.Congruence (g : Path → Path) (related : Query → Query → Prop)
    (R : Expr Query → Expr Query → Prop) : Prop where
  literal : ∀ value, R (.literal value) (.literal value)
  binary : ∀ {op left left' right right'}, R left left' → R right right' →
    R (.binary op left right) (.binary op left' right')
  nested : ∀ {inner inner'}, R inner inner' → R (.nested inner) (.nested inner')
  call : ∀ {name shape parts parts'}, List.Forall₂ R parts parts' →
    R (.call name shape parts) (.call (g name) shape parts')
  form : ∀ {shape parts parts'}, List.Forall₂ R parts parts' → R (.form shape parts) (.form shape parts')
  query : ∀ {q q'}, related q q' → R (.query q) (.query q')

section Expressions

variable {w : Expr.Walk m Query Query} {related : Query → Query → Prop} {R : Expr Query → Expr Query → Prop}

theorem Expr.walkAll_holds {l : List (Expr Query)} (each : ∀ e ∈ l, J.holds (e.walk w) (R e)) :
    J.holds (Expr.walk.walkAll w l) (List.Forall₂ R l) := by
  induction l with
  | nil =>
    rw [Expr.walk.walkAll]
    exact J.pure .nil
  | cons e l ih =>
    obtain ⟨first, rest⟩ := List.forall_mem_cons.mp each
    rw [Expr.walk.walkAll]
    exact J.bind first fun _ => J.bind (ih rest) fun _ => J.pure fun rest first => .cons first rest

/-- What a walk does with the names and the queries of an expression, it does with the expression. -/
theorem Expr.walk_lifts (closed : Expr.Congruence w.call related R)
    (bare : ∀ name, J.holds (w.ident name) (R (.ident name))) : ∀ e : Expr Query,
    (∀ parts ∈ e.paths, J.holds (w.path parts) (R (.path parts))) →
    (∀ q ∈ e.queries, J.holds (w.query q) (related q)) → J.holds (e.walk w) (R e)
  | .ident name, _, _ => bare name
  | .path parts, dotted, _ => dotted parts List.mem_cons_self
  | .literal value, _, _ => J.pure (closed.literal value)
  | .binary op left right, dotted, inside => by
    simp only [Expr.paths, Expr.queries, List.forall_mem_append] at dotted inside
    rw [Expr.walk]
    exact J.bind (Expr.walk_lifts closed bare left dotted.1 inside.1) fun _ =>
      J.bind (Expr.walk_lifts closed bare right dotted.2 inside.2) fun _ =>
      J.pure fun second first => closed.binary first second
  | .nested inner, dotted, inside =>
    J.bind (Expr.walk_lifts closed bare inner dotted inside) fun _ => J.pure closed.nested
  | .call _ _ parts, dotted, inside => by
    rw [Expr.paths, Expr.pathsAll_eq_flatMap, List.forall_mem_flatMap] at dotted
    rw [Expr.queries, Expr.queriesAll_eq_flatMap, List.forall_mem_flatMap] at inside
    exact J.bind (Expr.walkAll_holds fun e member => Expr.walk_lifts closed bare e (dotted e member) (inside e member))
      fun _ => J.pure closed.call
  | .form _ parts, dotted, inside => by
    rw [Expr.paths, Expr.pathsAll_eq_flatMap, List.forall_mem_flatMap] at dotted
    rw [Expr.queries, Expr.queriesAll_eq_flatMap, List.forall_mem_flatMap] at inside
    exact J.bind (Expr.walkAll_holds fun e member => Expr.walk_lifts closed bare e (dotted e member) (inside e member))
      fun _ => J.pure closed.form
  | .query q, _, inside => J.bind (inside q List.mem_cons_self) fun _ => J.pure closed.query

theorem Expr.queriesAll_pairs {l l' : List (Expr Query)}
    (pairs : List.Forall₂ (fun e e' => List.Forall₂ related e.queries e'.queries) l l') :
    List.Forall₂ related (Expr.queries.queriesAll l) (Expr.queries.queriesAll l') := by
  rw [Expr.queriesAll_eq_flatMap, Expr.queriesAll_eq_flatMap]
  exact List.rel_flatMap pairs fun _ _ h => h

theorem Expr.walk_pairs (flat : w.Flat J related) (e : Expr Query) :
    J.holds (e.walk w) fun e' => List.Forall₂ related e.queries e'.queries := by
  have closed : Expr.Congruence w.call related fun e e' => List.Forall₂ related e.queries e'.queries :=
    ⟨fun _ => .nil, fun first second => List.rel_append first second, id, queriesAll_pairs, queriesAll_pairs, fun h => .cons h .nil⟩
  have none {e' : Expr Query} (none : e'.queries = []) : List.Forall₂ related [] e'.queries := by
    rw [none]
    exact .nil
  exact Expr.walk_lifts closed (fun name => J.mono (flat.ident name) fun _ => none) e
    (fun parts _ => J.mono (flat.path parts) fun _ => none) fun q _ => flat.query q

theorem Expr.walkAll_pairs (flat : w.Flat J related) (l : List (Expr Query)) : J.holds (Expr.walk.walkAll w l) fun l' =>
      List.Forall₂ related (Expr.queries.queriesAll l) (Expr.queries.queriesAll l') :=
  J.mono (Expr.walkAll_holds fun e _ => Expr.walk_pairs flat e) fun _ => queriesAll_pairs

variable (c : Change) (reach : Reach)

theorem Expr.walk_queries (flat : w.Flat J related) (e : Expr Query) :
    J.holds (e.walk w) fun e' => c.Queries reach related e.queries e'.queries :=
  J.mono (Expr.walk_pairs flat e) fun _ => .of_pairs

theorem Expr.walkAll_queries (flat : w.Flat J related) (l : List (Expr Query)) :
    J.holds (Expr.walk.walkAll w l) fun l' =>
      c.Queries reach related (Expr.queries.queriesAll l) (Expr.queries.queriesAll l') :=
  J.mono (Expr.walkAll_pairs flat l) fun _ => .of_pairs

theorem Expr.walk_name (keeps : w.Keeps J related) (e : Expr Query) : J.holds (e.walk w) fun e' => e'.name? = e.name? :=
  Expr.walk_lifts (R := fun e e' => e'.name? = e.name?)
    ⟨fun _ => rfl, fun _ _ => rfl, fun _ => rfl, fun _ => rfl, fun _ => rfl, fun _ => rfl⟩
    (fun name => J.mono (keeps.ident name) fun _ same => by rw [same]) e
    (fun parts _ => J.mono (keeps.path parts) fun _ same => by rw [same]) fun q _ => keeps.query q

theorem forall₂_eq_map {α β : Type} {f : α → β} {l l' : List α} (pairs : List.Forall₂ (fun a a' => f a' = f a) l l') :
    l'.map f = l.map f := by
  induction pairs with
  | nil => rfl
  | cons first _ rest => rw [List.map_cons, List.map_cons, first, rest]

end Expressions

theorem forall₂_of_mem {α β : Type} {R S : α → β → Prop} {l : List α} {l' : List β}
    (h : List.Forall₂ R l l') (weaker : ∀ a ∈ l, ∀ b, R a b → S a b) : List.Forall₂ S l l' := by
  induction h with
  | nil => exact .nil
  | cons first _ ih =>
    refine .cons (weaker _ List.mem_cons_self _ first) (ih fun a member => ?_)
    exact weaker a (List.mem_cons_of_mem _ member)

section Matching

variable (E : Expr Query → Expr Query → Prop)

inductive JoinKind.Matches : JoinKind Query → JoinKind Query → Prop
  | asOf {e e'} : E e e' → Matches (.asOf e) (.asOf e')
  | plain (word) : Matches (.plain word) (.plain word)
  | cross : Matches .cross .cross
  | crossApply : Matches .crossApply .crossApply
  | outerApply : Matches .outerApply .outerApply

inductive JoinConstraint.Matches : JoinConstraint Query → JoinConstraint Query → Prop
  | condition {e e'} : E e e' → Matches (.condition e) (.condition e')
  | columns (names) : Matches (.columns names) (.columns names)
  | natural : Matches .natural .natural
  | none : Matches .none .none

/-- What a walk and its visitor do with the parts of a relation. -/
structure Expr.Walk.Lifts (J : Judgement m) (w : Expr.Walk m Query Query) (visit : Relation Query → m (Relation Query))
    (E : Expr Query → Expr Query → Prop) (related : Query → Query → Prop)
    (visited : Relation Query → Relation Query → Prop) : Prop where
  expr : ∀ e : Expr Query, J.holds (e.walk w) (E e)
  query : ∀ q, J.holds (w.query q) (related q)
  visit : ∀ r, J.holds (visit r) (visited r)

/-- Relations `R` of relations and `S` of joins that follow from the parts they are built of: expressions in `E`,
`related` queries, and what a visitor does with the relation. -/
structure Relation.Congruence (related : Query → Query → Prop) (visited R : Relation Query → Relation Query → Prop)
    (S : List (Join Query) → List (Join Query) → Prop) : Prop where
  table : ∀ {name ordinality label hints hints' r'}, E hints hints' →
    visited (.table name none ordinality label hints') r' → R (.table name none ordinality label hints) r'
  function : ∀ {name args args' ordinality label hints hints' r'}, List.Forall₂ E args args' → E hints hints' →
    visited (.table name (some args') ordinality label hints') r' →
    R (.table name (some args) ordinality label hints) r'
  derived : ∀ {lateral q q' label r'}, related q q' → visited (.derived lateral q' label) r' →
    R (.derived lateral q label) r'
  nested : ∀ {first first' joins joins' label r'}, R first first' → S joins joins' →
    visited (.nested first' joins' label) r' → R (.nested first joins label) r'
  unnest : ∀ {arrays arrays' suffix r'}, List.Forall₂ E arrays arrays' → visited (.unnest arrays' suffix) r' →
    R (.unnest arrays suffix) r'
  pivot : ∀ {source source' turn turn' r'}, R source source' → E turn turn' → visited (.pivot source' turn') r' →
    R (.pivot source turn) r'
  other : ∀ {e e' r'}, E e e' → visited (.other e') r' → R (.other e) r'
  nil : S [] []
  cons : ∀ {isGlobal kind kind' relation relation' constraint constraint' rest rest'}, kind.Matches E kind' →
    R relation relation' → constraint.Matches E constraint' → S rest rest' →
    S (.mk isGlobal kind relation constraint :: rest) (.mk isGlobal kind' relation' constraint' :: rest')

variable {E} {w : Expr.Walk m Query Query} {related : Query → Query → Prop}

theorem JoinKind.Matches.queries {kind kind' : JoinKind Query} (matched : kind.Matches E kind')
    (each : ∀ e e', E e e' → List.Forall₂ related e.queries e'.queries) :
    List.Forall₂ related kind.queries kind'.queries := by
  cases matched with
  | asOf h => exact each _ _ h
  | plain | cross | crossApply | outerApply => exact .nil

theorem JoinConstraint.Matches.queries {constraint constraint' : JoinConstraint Query}
    (matched : constraint.Matches E constraint') (each : ∀ e e', E e e' → List.Forall₂ related e.queries e'.queries) :
    List.Forall₂ related constraint.queries constraint'.queries := by
  cases matched with
  | condition h => exact each _ _ h
  | columns | natural | none => exact .nil

variable {visited R : Relation Query → Relation Query → Prop} {S : List (Join Query) → List (Join Query) → Prop}
  {visit : Relation Query → m (Relation Query)} (each : ∀ e : Expr Query, J.holds (e.walk w) (E e))

include each

theorem JoinKind.walk_matches (kind : JoinKind Query) : J.holds (kind.walk w) (kind.Matches E) := by
  cases kind with
  | asOf e => exact J.bind (each e) fun _ => J.pure .asOf
  | plain | cross | crossApply | outerApply => exact J.pure (by constructor)

theorem JoinConstraint.walk_matches (constraint : JoinConstraint Query) :
    J.holds (constraint.walk w) (constraint.Matches E) := by
  cases constraint with
  | condition e => exact J.bind (each e) fun _ => J.pure .condition
  | columns | natural | none => exact J.pure (by constructor)

omit each

mutual

/-- What a walk does with the parts of a relation, it does with the relation. -/
theorem Relation.walk_lifts (closed : Relation.Congruence E related visited R S)
    (parts : w.Lifts J visit E related visited) : ∀ r : Relation Query, J.holds (r.walk w visit) (R r)
  | .table name none ordinality label hints => by
    simp only [Relation.walk, pure_bind]
    exact J.bind (parts.expr hints) fun _ => J.mono (parts.visit _) fun _ seen hints => closed.table hints seen
  | .table name (some args) ordinality label hints => by
    simp only [Relation.walk, pure_bind]
    exact J.bind (Expr.walkAll_holds fun e _ => parts.expr e) fun _ => J.bind (parts.expr hints) fun _ =>
      J.mono (parts.visit _) fun _ seen hints args => closed.function args hints seen
  | .derived lateral query label => by
    rw [Relation.walk]
    exact J.bind (parts.query query) fun _ => J.mono (parts.visit _) fun _ seen query => closed.derived query seen
  | .nested first joins label => by
    rw [Relation.walk]
    exact J.bind (Relation.walk_lifts closed parts first) fun _ =>
      J.bind (Join.walkAll_lifts closed parts joins) fun _ =>
      J.mono (parts.visit _) fun _ seen rest head => closed.nested head rest seen
  | .unnest arrays suffix => by
    rw [Relation.walk]
    exact J.bind (Expr.walkAll_holds fun e _ => parts.expr e) fun _ =>
      J.mono (parts.visit _) fun _ seen arrays => closed.unnest arrays seen
  | .pivot source turn => by
    rw [Relation.walk]
    exact J.bind (Relation.walk_lifts closed parts source) fun _ => J.bind (parts.expr turn) fun _ =>
      J.mono (parts.visit _) fun _ seen turn source => closed.pivot source turn seen
  | .other construct => by
    rw [Relation.walk]
    exact J.bind (parts.expr construct) fun _ => J.mono (parts.visit _) fun _ seen construct => closed.other construct seen

theorem Join.walkAll_lifts (closed : Relation.Congruence E related visited R S)
    (parts : w.Lifts J visit E related visited) : ∀ js : List (Join Query), J.holds (Join.walkAll w visit js) (S js)
  | [] => J.pure closed.nil
  | .mk isGlobal kind relation constraint :: rest => by
    simp only [Join.walkAll, Join.walk, bind_assoc, pure_bind]
    exact J.bind (Relation.walk_lifts closed parts relation) fun _ =>
      J.bind (JoinKind.walk_matches parts.expr kind) fun _ => J.bind (JoinConstraint.walk_matches parts.expr constraint) fun _ =>
      J.bind (Join.walkAll_lifts closed parts rest) fun _ =>
      J.pure fun rest constraint kind relation => closed.cons kind relation constraint rest

end

theorem FromItem.walk_lifts (closed : Relation.Congruence E related visited R S)
    (parts : w.Lifts J visit E related visited) (item : FromItem Query) :
    J.holds (item.walk w visit) fun item' => R item.first item'.first ∧ S item.joins item'.joins :=
  J.bind (Relation.walk_lifts closed parts item.first) fun _ =>
    J.bind (Join.walkAll_lifts closed parts item.joins) fun _ => J.pure fun rest head => ⟨head, rest⟩

end Matching

section Relations

variable {c : Change} {reach : Reach} {related : Query → Query → Prop}

def Relation.isTable {Q : Type} : Relation Q → Bool
  | .table .. => true
  | _ => false

/-- A relation stands for another one: its mentions follow a change, and its nested queries are those
    of the other one, or mention only what the change allows. -/
structure Relation.Replaces (c : Change) (reach : Reach) (r r' : Relation Query) : Prop where
  mentions : c.Mentions r.mentions r'.mentions
  forth : ∀ x ∈ r.inner reach, x ∈ r'.inner reach ∨ ∀ mention, c.gone mention
  back : ∀ x ∈ r'.inner reach, x ∈ r.inner reach ∨ ∀ mention, x.Mentions reach mention → c.new mention

/-- A visitor that changes nothing but tables. -/
structure Visits (J : Judgement m) (c : Change) (reach : Reach)
    (visit : Relation Query → m (Relation Query)) : Prop where
  other : ∀ r, r.isTable = false → visit r = pure r
  table : ∀ r, r.isTable = true → J.holds (visit r) (r.Replaces c reach)

/-- What a walked relation mentions and holds corresponds to the relation. -/
structure Relation.Alike (c : Change) (reach : Reach) (related : Query → Query → Prop)
    (r r' : Relation Query) : Prop where
  mentions : c.Mentions r.mentions r'.mentions
  inner : c.Queries reach related (r.inner reach) (r'.inner reach)

/-- What walked joins mention and hold corresponds to the joins. -/
structure Join.Alike (c : Change) (reach : Reach) (related : Query → Query → Prop)
    (js js' : List (Join Query)) : Prop where
  mentions : c.Mentions (Join.mentionsAll js) (Join.mentionsAll js')
  inner : c.Queries reach related (Join.innerAll reach js) (Join.innerAll reach js')

private theorem Relation.Replaces.alike {r r₁ r' : Relation Query} (same : r₁.mentions = r.mentions)
    (inner : c.Queries reach related (r.inner reach) (r₁.inner reach))
    (replaces : r₁.Replaces c reach r') : r.Alike c reach related r' := by
  refine ⟨same ▸ replaces.mentions, ?_, ?_⟩
  · intro x member
    rcases inner.forth x member with ⟨x₁, member₁, h⟩ | gone
    · rcases replaces.forth x₁ member₁ with member' | gone
      · exact .inl ⟨x₁, member', h⟩
      · exact .inr fun mention _ => gone mention
    · exact .inr gone
  · intro x' member'
    rcases replaces.back x' member' with member₁ | new
    · exact inner.back x' member₁
    · exact .inr new

variable {w : Expr.Walk m Query Query} {visit : Relation Query → m (Relation Query)}

theorem Relation.alike_congruence : Relation.Congruence
    (fun e e' => e'.name? = e.name? ∧ List.Forall₂ related e.queries e'.queries) related
    (fun r r' => (r.isTable = false → r' = r) ∧ (r.isTable = true → r.Replaces c reach r'))
    (Relation.Alike c reach related) (Join.Alike c reach related) where
  table hints visited := (visited.2 rfl).alike (by rfl) ((Tracks.nil.append (.of_pairs hints.2)).aside reach)
  function args hints visited := by
    have names := forall₂_eq_map (args.imp fun _ _ h => h.1)
    refine (visited.2 rfl).alike (by simp only [Relation.mentions, names]) ?_
    exact ((Tracks.of_pairs (Expr.queriesAll_pairs (args.imp fun _ _ h => h.2))).append (.of_pairs hints.2)).aside reach
  derived query visited := by
    cases visited.1 rfl
    exact ⟨.nil, .single query⟩
  nested head rest visited := by
    cases visited.1 rfl
    exact ⟨head.mentions.append rest.mentions, head.inner.append rest.inner⟩
  unnest arrays visited := by
    cases visited.1 rfl
    exact ⟨.nil, .of_pairs (Expr.queriesAll_pairs (arrays.imp fun _ _ h => h.2))⟩
  pivot head turn visited := by
    cases visited.1 rfl
    exact ⟨head.mentions, head.inner.append ((Tracks.of_pairs turn.2).aside reach)⟩
  other construct visited := by
    cases visited.1 rfl
    exact ⟨.nil, (Tracks.of_pairs construct.2).aside reach⟩
  nil := ⟨.nil, .nil⟩
  cons kinds head compared others := by
    have kinds := kinds.queries fun _ _ h => h.2
    have compared := compared.queries fun _ _ h => h.2
    refine ⟨head.mentions.append others.mentions, ?_⟩
    exact ((head.inner.append ((Tracks.of_pairs kinds).aside reach)).append (.of_pairs compared)).append others.inner

/-- A walk that keeps names and changes tables by a visitor. -/
theorem Visits.lifts (visits : Visits J c reach visit) (r : Relation Query) : J.holds (visit r) fun r' =>
    (r.isTable = false → r' = r) ∧ (r.isTable = true → r.Replaces c reach r') := by
  cases kind : r.isTable with
  | false =>
    rw [visits.other r kind]
    exact J.pure ⟨fun _ => rfl, nofun⟩
  | true => exact J.mono (visits.table r kind) fun _ replaces => ⟨nofun, fun _ => replaces⟩

end Relations

section Clauses

variable {w : Expr.Walk m Query Query} {related : Query → Query → Prop} (c : Change) (reach : Reach)

theorem SelectItem.walk_inner (flat : w.Flat J related) (item : SelectItem Query) :
    J.holds (item.walk w) fun item' => c.Queries reach related (item.inner reach) (item'.inner reach) := by
  cases item with
  | wildcard options | qualifiedWildcard _ options =>
    rw [SelectItem.walk]
    exact J.bind (Expr.walk_queries c reach flat options) fun _ => J.pure fun h => h.aside reach
  | expr e | aliased e _ =>
    rw [SelectItem.walk]
    exact J.bind (Expr.walk_queries c reach flat e) fun _ => J.pure id

theorem walkOption_queries (flat : w.Flat J related) (e : Option (Expr Query)) :
    J.holds (walkOption w e) fun e' => c.Queries reach related (queriesOf e) (queriesOf e') := by
  cases e with
  | none => exact J.pure .nil
  | some e =>
    rw [walkOption]
    exact J.bind (Expr.walk_queries c reach flat e) fun _ => J.pure id

theorem GroupBy.walk_queries (flat : w.Flat J related) (groupBy : GroupBy Query) :
    J.holds (groupBy.walk w) fun groupBy' => c.Queries reach related groupBy.queries groupBy'.queries := by
  cases groupBy with
  | all => exact J.pure .nil
  | exprs items _ =>
    rw [GroupBy.walk]
    refine J.bind (Expr.walkAll_queries c reach flat items) fun items' => J.pure ?_
    simp only [GroupBy.queries, Expr.queriesAll_eq_flatMap]
    exact id

theorem OrderItem.walk_queries (flat : w.Flat J related) (items : List (OrderItem Query)) :
    J.holds (items.mapM (OrderItem.walk w)) fun items' =>
      c.Queries reach related (orderQueries items) (orderQueries items') := by
  have each : ∀ item : OrderItem Query, J.holds (item.walk w) fun item' =>
      c.Queries reach related item.expr.queries item'.expr.queries :=
    fun item => J.bind (Expr.walk_queries c reach flat item.expr) fun _ => J.pure id
  exact J.mono (J.mapM each items) fun _ pairs => Tracks.flatMap pairs

end Clauses

section Bodies

variable {c : Change} {reach : Reach} {related : Query → Query → Prop}
  {w : Expr.Walk m Query Query} {visit : Relation Query → m (Relation Query)}

/-- What walked FROM items mention and hold corresponds to the items. -/
structure FromItem.Alike (c : Change) (reach : Reach) (related : Query → Query → Prop)
    (items items' : List (FromItem Query)) : Prop where
  mentions : c.Mentions (items.flatMap FromItem.mentions) (items'.flatMap FromItem.mentions)
  inner : c.Queries reach related (items.flatMap (FromItem.inner reach)) (items'.flatMap (FromItem.inner reach))

/-- What a walked body mentions and holds corresponds to the body. -/
structure Body.Alike (c : Change) (reach : Reach) (related : Query → Query → Prop)
    (b b' : Body Query) : Prop where
  mentions : c.Mentions b.mentions b'.mentions
  inner : c.Queries reach related (b.inner reach) (b'.inner reach)

variable (keeps : w.Keeps J related) (visits : Visits J c reach visit)

include keeps visits

theorem FromItem.walk_alike (item : FromItem Query) :
    J.holds (item.walk w visit) fun item' => c.Mentions item.mentions item'.mentions ∧
      c.Queries reach related (item.inner reach) (item'.inner reach) := by
  have each (e : Expr Query) := J.and (Expr.walk_name keeps e) (Expr.walk_pairs keeps.flat e)
  refine J.mono (FromItem.walk_lifts Relation.alike_congruence ⟨each, keeps.query, visits.lifts⟩ item)
    fun _ ⟨head, rest⟩ => ?_
  exact ⟨head.mentions.append rest.mentions, head.inner.append rest.inner⟩

theorem FromItem.mapM_walk_alike (items : List (FromItem Query)) :
    J.holds (items.mapM (FromItem.walk w visit)) (FromItem.Alike c reach related items) := by
  refine J.mono (J.mapM (FromItem.walk_alike keeps visits) items) fun items' pairs => ?_
  exact ⟨.flatMap (pairs.imp fun _ _ h => h.1), .flatMap (pairs.imp fun _ _ h => h.2)⟩

theorem Select.walk_alike (s : Select Query) :
    J.holds (s.walk w visit) fun s' => Body.Alike c reach related (.select s) (.select s') := by
  have flat := keeps.flat
  unfold Select.walk
  refine J.bind (Expr.walk_queries c reach flat s.quantifier) fun _ =>
    J.bind (J.mapM (SelectItem.walk_inner c reach flat) s.items) fun _ =>
    J.bind (FromItem.mapM_walk_alike keeps visits s.source) fun _ =>
    J.bind (Expr.walk_queries c reach flat s.views) fun _ =>
    J.bind (walkOption_queries c reach flat s.filter) fun _ =>
    J.bind (GroupBy.walk_queries c reach flat s.groupBy) fun _ =>
    J.bind (Expr.walk_queries c reach flat s.distribution) fun _ =>
    J.bind (walkOption_queries c reach flat s.having) fun _ =>
    J.bind (Expr.walk_queries c reach flat s.windows) fun _ =>
    J.bind (walkOption_queries c reach flat s.qualify) fun _ =>
    J.bind (Expr.walk_queries c reach flat s.trailer) fun _ => J.pure ?_
  intro trailer qualify windows having distribution groupBy filter views source items quantifier
  refine ⟨source.mentions, (source.inner.append ?_).append (Tracks.aside reach ?_)⟩
  · exact ((((Tracks.flatMap items).append filter).append groupBy).append having).append qualify
  · exact (((quantifier.append views).append distribution).append windows).append trailer

theorem Write.walk_alike (b : Write Query) :
    J.holds (b.walk w visit) fun b' => Body.Alike c reach related (.write b) (.write b') := by
  unfold Write.walk
  refine J.bind (FromItem.walk_alike keeps visits b.target) fun target' =>
    J.bind (Expr.walk_queries c reach keeps.flat b.change) fun change' => ?_
  -- The optional FROM item is walked before what follows it, so what follows is judged first.
  have rest : ∀ source' : Option (FromItem Query), J.holds (do
        let trailer ← b.trailer.walk w
        pure { start := b.start, target := target', change := change', source := source', trailer })
      fun b' => FromItem.Alike c reach related b.source.toList source'.toList →
        c.Queries reach related b.change.queries change'.queries →
        (c.Mentions b.target.mentions target'.mentions ∧
          c.Queries reach related (b.target.inner reach) (target'.inner reach)) →
        Body.Alike c reach related (.write b) (.write b') := by
    intro source'
    refine J.bind (Expr.walk_queries c reach keeps.flat b.trailer) fun trailer' => J.pure ?_
    intro trailer source change target
    refine ⟨target.1.append source.mentions, ?_⟩
    exact (target.2.append source.inner).append ((change.append trailer).aside reach)
  cases found : b.source with
  | none =>
    simp only [pure_bind]
    exact J.mono (rest none) fun b' h => h (by rw [found]; exact ⟨.nil, .nil⟩)
  | some item =>
    simp only [pure_bind]
    refine J.bind (FromItem.walk_alike keeps visits item) fun item' => ?_
    refine J.mono (rest (some item')) fun b' h same => h ?_
    rw [found]
    exact ⟨same.1.append .nil, same.2.append .nil⟩

theorem Body.walk_alike : ∀ b : Body Query, J.holds (b.walk w visit) (b.Alike c reach related)
  | .select s => by
    rw [Body.walk]
    exact J.bind (Select.walk_alike keeps visits s) fun _ => J.pure id
  | .query q => by
    rw [Body.walk]
    exact J.bind (keeps.query q) fun _ => J.pure fun h => ⟨.nil, .single h⟩
  | .setOp word left right => by
    rw [Body.walk]
    refine J.bind (Body.walk_alike left) fun _ =>
      J.bind (Body.walk_alike right) fun _ => J.pure fun second first => ?_
    exact ⟨first.mentions.append second.mentions, first.inner.append second.inner⟩
  | .values rows explicitRow => by
    rw [Body.walk]
    have each := fun row => Expr.walkAll_queries c reach keeps.flat row
    simp only [Expr.queriesAll_eq_flatMap] at each
    exact J.bind (J.mapM each rows) fun _ => J.pure fun pairs => ⟨.nil, .flatMap pairs⟩
  | .table name => by
    rw [Body.walk]
    exact J.pure ⟨.nil, .nil⟩
  | .write b => by
    rw [Body.walk]
    exact J.bind (Write.walk_alike keeps visits b) fun _ => J.pure id

/-- What a walked query reads corresponds to what the query reads. -/
theorem Query.walk_alike (q : Query) : J.holds (q.walk w visit) (q.Alike c reach related) := by
  have entry : ∀ cte : Cte Query, J.holds (do
      let query ← w.query cte.query
      return { cte with query })
      fun cte' => cte'.name = cte.name ∧ related cte.query cte'.query :=
    fun cte => J.bind (keeps.query cte.query) fun _ => J.pure fun h => ⟨rfl, h⟩
  unfold Query.walk
  refine J.bind (J.mapM entry q.ctes) fun _ =>
    J.bind (Body.walk_alike keeps visits q.body) fun _ =>
    J.bind (OrderItem.walk_queries c reach keeps.flat q.orderBy) fun _ =>
    J.bind (walkOption_queries c reach keeps.flat q.limit) fun _ =>
    J.bind (Expr.walk_queries c reach keeps.flat q.trailer) fun _ => J.pure ?_
  intro trailer limit orderBy body entries
  refine ⟨rfl, entries, body.mentions, ?_⟩
  exact (body.inner.append orderBy).append ((limit.append trailer).aside reach)

end Bodies

section Edits

variable {c : Change} {reach : Reach}

/-- Nested queries are lower than the query, so they follow the change if all queries that low do. -/
theorem Query.Alike.of_height {n : Nat} {q q' : Query} (low : q.height ≤ n + 1)
    (alike : q.Alike c reach (fun x x' => x.height ≤ n → x.Follows c reach x') q') :
    q.Alike c reach (Query.Follows c reach) q' := by
  refine ⟨alike.recursive, ?_, alike.mentions, ?_⟩
  · refine forall₂_of_mem alike.entries fun cte member cte' h => ⟨h.1, h.2 ?_⟩
    have := Query.height_lt_ctes member
    omega
  · refine alike.inner.mono fun x member x' h => h ?_
    have := Query.height_lt_inner member
    omega

/-- An edit that leaves names alone makes the change that it makes to tables. -/
theorem Query.editAt_alike {e : Edit m} (ident : ∀ name, J.holds (e.ident name) (· = .ident name))
    (path : ∀ parts, J.holds (e.path parts) (· = .path parts)) (visits : Visits J c reach e.relation) :
    ∀ n q, J.holds (Query.editAt e n q) fun q' => q.height ≤ n → q.Alike c reach (Query.Follows c reach) q'
  | 0, q => J.pure fun low => absurd q.height_pos (by omega)
  | n + 1, q => by
    have keeps : (e.walk (Query.editAt e n)).Keeps J fun x x' => x.height ≤ n → x.Follows c reach x' :=
      ⟨ident, path, fun x => J.mono (Query.editAt_alike ident path visits n x) fun _ alike low => (alike low).follows⟩
    exact J.mono (Query.walk_alike keeps visits q) fun q' alike low => alike.of_height low

theorem Query.edit_alike {e : Edit m} (ident : ∀ name, J.holds (e.ident name) (· = .ident name))
    (path : ∀ parts, J.holds (e.path parts) (· = .path parts)) (visits : Visits J c reach e.relation)
    (q : Query) : J.holds (q.edit e) (q.Alike c reach (Query.Follows c reach)) :=
  J.mono (Query.editAt_alike ident path visits q.height q) fun _ alike => alike (Nat.le_refl _)

end Edits

end SemanticLayer.Sql
