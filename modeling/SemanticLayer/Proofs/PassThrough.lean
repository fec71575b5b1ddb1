import SemanticLayer.Proofs.Closure
import SemanticLayer.Proofs.Success
import SemanticLayer.Proofs.Unchanged

/-! # Queries without objects

A query that names no object of the layer is compiled to itself. No stage finds anything to do: no relation has
fields, so that no name can be a dereference, and no entry is added. Main statement: `Context.compile_eq_self`.
-/

namespace SemanticLayer

open Sql List

variable {x : Query} {name : Path}

namespace Sql.Query

variable {reach : Reach} {q : Query} {mention : Mention}

theorem Names.of_contains (contained : q.Contains reach x) (named : x.Names name) : q.Names name := by
  induction contained with
  | self => exact named
  | nested member _ ih => exact .nested (queries_of_inner member) (ih named)
  | entry member _ ih => exact .nested (queries_of_ctes member) (ih named)

theorem mapTables_eq_self {f : Path → Path} (q : Query) (same : ∀ name, q.Names name → f name = name) :
    q.mapTables f = q := by
  have keeps : KeepsTables (m := Id) (fun name => f name = name) fun r => r.mapTable f := by
    intro r tables
    cases r with
    | table name args ordinality label hints =>
      change Relation.table (f name) args ordinality label hints = _
      rw [tables name args ordinality label hints rfl]
      rfl
    | derived | nested | unnest | pivot | other => rfl
  rw [mapTables_eq]
  refine congrArg Id.run (walk_eq_pure keeps q (fun name member => same name (.here member)) ?_)
  intro x member
  exact mapTables_eq_self x fun name named => same name (.nested member named)
termination_by q.height
decreasing_by exact height_lt_queries member

theorem Contains.trans {y : Query} (first : q.Contains reach x) (second : x.Contains reach y) : q.Contains reach y := by
  induction first with
  | self => exact second
  | nested member _ ih => exact .nested member (ih second)
  | entry member _ ih => exact .entry member (ih second)

/-- The SELECTs of a query nested at most `n` deep. -/
def selectsAt : Nat → Query → List Clauses
  | 0, _ => []
  | n + 1, q => q.body.selects q.orderBy ++ q.queries.flatMap (selectsAt n)

theorem Contains.mem_selectsAt (contained : q.Contains reach x) {a : Clauses}
    (member : a ∈ x.body.selects x.orderBy) (n : Nat) (low : q.height ≤ n) : a ∈ q.selectsAt n := by
  have below : ∀ {q x : Query}, x ∈ q.queries → (∀ n, x.height ≤ n → a ∈ x.selectsAt n) →
      ∀ n, q.height ≤ n → a ∈ q.selectsAt n := by
    intro q x nested deep n low
    have lower := height_lt_queries nested
    obtain ⟨n, rfl⟩ := exists_succ low
    rw [selectsAt]
    exact mem_append_right _ (mem_flatMap.mpr ⟨x, nested, deep n (by omega)⟩)
  induction contained generalizing n with
  | @self q =>
    obtain ⟨n, rfl⟩ := exists_succ low
    rw [selectsAt]
    exact mem_append_left _ member
  | nested inside _ ih => exact below (queries_of_inner inside) (ih member) n low
  | entry inside _ ih => exact below (queries_of_ctes inside) (ih member) n low

end Sql.Query

namespace With

theorem orderFrom_eq_self {reads : Cte Query → List String} : ∀ (n : Nat) (done : List String)
    (pending : List (Cte Query)), pending.length ≤ n →
    (∀ front cte back, pending = front ++ cte :: back → ∀ name ∈ reads cte, name ∈ done ∨ name ∈ front.map nameOf) →
    orderFrom reads n done pending = pending
  | 0, _, pending, short, _ => by rw [orderFrom]
  | n + 1, done, [], _, _ => by simp [orderFrom, extract?]
  | n + 1, done, cte :: rest, short, ready => by
    have first : (reads cte).all done.contains = true := by
      rw [all_eq_true]
      intro name member
      simpa using ready [] cte rest rfl name member
    have others := orderFrom_eq_self n (nameOf cte :: done) rest (by simpa using short)
      fun front cte' back split name member => by
        rcases ready (cte :: front) cte' back (by rw [split, cons_append]) name member with old | new
        · exact .inl (mem_cons_of_mem _ old)
        · rw [map_cons, mem_cons] at new
          rcases new with rfl | new
          · exact .inl mem_cons_self
          · exact .inr new
    simp [orderFrom, extract?, first, others]

theorem sort_eq_self {q : Query} (ordered : q.recursive = true ∨
    q.ctes.Pairwise fun cte later => nameOf later ∉ cte.query.relations) : sort q = q := by
  unfold sort
  split
  · rfl
  · rename_i plain
    have ordered := ordered.resolve_left plain
    have same : orderFrom (dependencies (names q)) q.ctes.length [] q.ctes = q.ctes := by
      apply orderFrom_eq_self _ _ _ (Nat.le_refl _)
      intro front cte back split name member
      simp only [dependencies, mem_filter, Bool.and_eq_true, bne_iff_ne, contains_iff_mem] at member
      obtain ⟨read, listed, other⟩ := member
      rw [split] at ordered
      rw [names, split, map_append, map_cons, mem_append, mem_cons] at listed
      rcases listed with earlier | here | later
      · exact .inr earlier
      · exact absurd here other
      · obtain ⟨entry, member, rfl⟩ := mem_map.mp later
        have apart := (pairwise_append.mp ordered).2.1
        exact absurd read ((pairwise_cons.mp apart).1 entry member)
    rw [same]
    cases q
    rfl

end With

/-- Where no name means a field, a finder finds no joins. -/
def JoinFinder.Quiet (find : JoinFinder) : Prop :=
  ∀ clauses (scope : Scope), scope.Blank → find clauses scope = .ok (clauses, [])

namespace Context

section Joining

variable {c : Context} {find : JoinFinder} {nested : Scope → Query → Joiner (Query × List RelatedJoin)} {q : Query}
  {a : Clauses} {parent : Scope}

/-- A query asks for no joins in a scope. -/
abbrev Rests (nested : Scope → Query → Joiner (Query × List RelatedJoin)) (scope : Scope) (x : Query) : Prop :=
  nested scope x = pure (x, [])

structure RestsSelect (c : Context) (find : JoinFinder) (nested : Scope → Query → Joiner (Query × List RelatedJoin))
    (parent : Scope) (a : Clauses) : Prop where
  scope : c.sourceScope a.select parent = .ok (c.frame a :: parent)
  found : find a (c.frame a :: parent) = .ok (a, [])
  clause : ∀ x ∈ a.queries .written, Rests nested (c.frame a :: parent) x
  source : ∀ x ∈ a.inner .written, Rests nested [] x

theorem joinNested_rests {scope : Scope} (rests : ∀ x ∈ a.queries .written, Rests nested scope x) :
    joinNested nested scope a = pure (a, []) := by
  have kept : a.walk (nestedWalk nested scope) = pure a := by
    refine walkClauses_eq_pure a fun x member => ?_
    rw [rests x member]
    funext joins
    change (pure ((x, joins ++ []) : Query × List RelatedJoin) : Joiner _) = _
    rw [append_nil]
    rfl
  rw [joinNested, kept]
  rfl

theorem joinClauses_rests (rests : c.RestsSelect find nested parent a) :
    c.joinClauses find nested parent a = pure (a, []) := by
  have kept : joinSource nested a.select.source = pure a.select.source := by
    refine walkSource_eq_pure a.select.source fun x member => ?_
    rw [rests.source x member, pure_bind]
  have lift_ok : ∀ {α : Type} (r : α), (liftM (Except.ok r : Except CompileError α) : Joiner α) = pure r :=
    fun _ => rfl
  unfold joinClauses
  rw [kept, pure_bind]
  dsimp only
  rw [rests.scope, lift_ok, pure_bind, joinNested_rests rests.clause, pure_bind, rests.found, lift_ok, pure_bind]
  rfl

theorem joinBody_rests : ∀ (b : Body Query) (orderBy : List (OrderItem Query)),
    (∀ a ∈ b.selects orderBy, c.RestsSelect find nested parent a) → (∀ x ∈ b.operands, Rests nested parent x) →
    c.joinBody find nested parent orderBy b = pure (b, orderBy, [])
  | .select s, orderBy, selects, _ => by
    rw [joinBody, joinClauses_rests (selects ⟨s, orderBy⟩ (by simp [Body.selects])), pure_bind]
  | .query q, orderBy, _, operands => by
    rw [joinBody, operands q (by simp [Body.operands]), pure_bind]
  | .setOp word left right, orderBy, selects, operands => by
    simp only [Body.selects, Body.operands, forall_mem_append] at selects operands
    have first := joinBody_rests left [] selects.1 operands.1
    have second := joinBody_rests right [] selects.2 operands.2
    simp only [joinBody, first, second, pure_bind, append_nil]
  | .values _ _, _, _, _ | .table _, _, _, _ | .write _, _, _, _ => rfl

theorem joinQueryWith_rests (entries : ∀ cte ∈ q.ctes, Rests nested parent cte.query)
    (selects : ∀ a ∈ q.body.selects q.orderBy, c.RestsSelect find nested parent a)
    (operands : ∀ x ∈ q.body.operands, Rests nested parent x) :
    c.joinQueryWith find nested parent q = pure (q, []) := by
  have listed : q.ctes.mapM (joinEntry nested parent) = pure (q.ctes.map (·, [])) := by
    rw [← mapM_pure]
    refine mapM_congr fun cte member => ?_
    rw [joinEntry, entries cte member, pure_bind]
  have kept : (q.ctes.map (·, ([] : List RelatedJoin))).map (·.1) = q.ctes := by
    rw [map_map]
    exact map_id q.ctes
  have none : (q.ctes.map (·, ([] : List RelatedJoin))).flatMap (·.2) = [] := by simp
  rw [joinQueryWith, listed, pure_bind, joinBody_rests q.body q.orderBy selects operands, pure_bind, kept, none]
  cases q
  rfl

/-- A SELECT whose FROM clause has no fields. -/
def Passable (c : Context) (a : Clauses) : Prop :=
  ∀ scope : Scope, scope.Blank → c.sourceScope a.select scope = .ok ({} :: scope)

theorem Passable.rests (passable : c.Passable a) (blank : parent.Blank)
    (quiet : find.Quiet) (clause : ∀ x ∈ a.queries .written, ∀ scope : Scope, scope.Blank → Rests nested scope x)
    (source : ∀ x ∈ a.inner .written, Rests nested [] x) : c.RestsSelect find nested parent a := by
  have inside : Scope.Blank ({} :: parent) := blank.cons rfl
  have same : c.frame a :: parent = {} :: parent := (sourceScope_eq (passable parent blank)).symm
  constructor
  · rw [same]
    exact passable parent blank
  · rw [same]
    exact quiet a _ inside
  · rw [same]
    exact fun x member => clause x member _ inside
  · exact source

theorem Holds.elsewhere {reach : Reach} {s : Scope}
    (holds : c.Holds reach parent q s a) (other : Scope) : ∃ s', c.Holds reach other q s' a := by
  induction holds generalizing other with
  | here member => exact ⟨_, .here member⟩
  | clause member nested _ ih =>
    obtain ⟨s', holds⟩ := ih _
    exact ⟨s', .clause member nested holds⟩
  | source member nested _ ih =>
    obtain ⟨s', holds⟩ := ih []
    exact ⟨s', .source member nested holds⟩
  | operand member _ ih =>
    obtain ⟨s', holds⟩ := ih other
    exact ⟨s', .operand member holds⟩
  | entry member _ ih =>
    obtain ⟨s', holds⟩ := ih other
    exact ⟨s', .entry member holds⟩

/-- Joining leaves a query alone if no FROM clause in it has fields. -/
theorem joinQueryUpTo_idle (quiet : find.Quiet) : ∀ (n : Nat) (q : Query),
    (∀ s a, c.Holds .written [] q s a → c.Passable a) →
    ∀ parent : Scope, parent.Blank → Rests (c.joinQueryUpTo find n) parent q
  | 0, q, _ => fun _ _ => rfl
  | n + 1, q, passable => by
    -- A query in a clause is seen from another scope there, but it holds the same SELECTs.
    have below : ∀ {x : Query}, (∀ s a, c.Holds .written [] x s a → ∃ s', c.Holds .written [] q s' a) →
        ∀ scope : Scope, scope.Blank → Rests (c.joinQueryUpTo find n) scope x := by
      intro x holds
      refine joinQueryUpTo_idle quiet n x fun s a inside => ?_
      obtain ⟨s', outside⟩ := holds s a inside
      exact passable s' a outside
    intro parent blank
    refine joinQueryWith_rests (fun cte member => ?_) (fun a member => ?_) fun x member => ?_
    · exact below (fun s b holds => ⟨s, .entry member holds⟩) parent blank
    · refine (passable _ a (.here member)).rests blank quiet (fun x nested => ?_) fun x nested => ?_
      · exact below fun s b holds => (holds.elsewhere _).imp fun _ holds => .clause member nested holds
      · exact below (fun s b holds => ⟨s, .source member nested holds⟩) [] .nil
    · exact below (fun s b holds => ⟨s, .operand member holds⟩) parent blank

theorem dereferences_quiet (l : Layer) : (dereferences l).Quiet := by
  intro a scope blank
  have kept : dereference l scope = fun parts => pure (.path parts) := by
    funext parts
    rw [dereference_eq, blank.reference]
    rfl
  have walked : a.walk { Expr.Walk.keep (StateT (List RelatedJoin) (Except CompileError)) Query with
      path := dereference l scope } = pure a := by
    rw [kept]
    exact walkClauses_eq_pure a fun _ _ => rfl
  rw [dereferences, walked]
  rfl

theorem groupKeyJoins_quiet (l : Layer) : (groupKeyJoins l).Quiet := by
  intro a scope blank
  have unnoted : RelatedKeys.note l a.select.items scope = fun found _ => pure found := by
    funext found (e, index)
    have none : relationshipKey a.select.items scope e = .ok none := by
      unfold relationshipKey
      dsimp only
      split
      · rfl
      · rw [blank.resolve]
        rfl
    rw [RelatedKeys.note, none]
    rfl
  unfold groupKeyJoins
  cases grouped : a.select.groupBy with
  | all => rfl
  | exprs keys modifiers =>
    have none : keys.zipIdx.foldlM (RelatedKeys.note l a.select.items scope) {} = .ok {} := by
      rw [unnoted]
      generalize keys.zipIdx = numbered
      induction numbered with
      | nil => rfl
      | cons _ _ ih => exact ih
    simp only [none]
    change Except.ok _ = _
    rw [RelatedKeys.insertInto, reverse_nil, foldl_nil, ← grouped]

end Joining

section Levels

variable {c : Context} {reach : Reach} {parent s : Scope} {q : Query} {a : Clauses}

theorem mentions_of_select : ∀ {b : Body Query} {orderBy : List (OrderItem Query)}, a ∈ b.selects orderBy →
    ∀ mention ∈ a.select.source.flatMap FromItem.mentions, mention ∈ b.mentions
  | .select s, _, member, mention, found => by
    cases mem_singleton.mp member
    exact found
  | .setOp _ left right, _, member, mention, found => by
    rw [Body.mentions, mem_append]
    exact (mem_append.mp member).imp (mentions_of_select · mention found) (mentions_of_select · mention found)

theorem accepts_of_select : ∀ {b : Body Query} {orderBy : List (OrderItem Query)}, a ∈ b.selects orderBy →
    c.AcceptsBody b → c.AcceptsSource a.select.source
  | .select s, _, member, accepted => by
    cases mem_singleton.mp member
    exact accepted
  | .setOp _ left right, _, member, accepted => by
    rcases mem_append.mp member with member | member
    · exact accepts_of_select member accepted.1
    · exact accepts_of_select member accepted.2

theorem inner_of_select (member : a ∈ q.body.selects q.orderBy)
    (nested : x ∈ a.queries reach ∨ x ∈ a.inner reach) : x ∈ q.inner reach :=
  mem_append_left _ (mem_inner_of_select member nested)

theorem Holds.level (holds : c.Holds reach parent q s a) : ∃ x, q.Contains reach x ∧ a ∈ x.body.selects x.orderBy := by
  induction holds with
  | @here _ q _ member => exact ⟨q, .self, member⟩
  | clause member nested _ ih =>
    obtain ⟨x, contained, inside⟩ := ih
    exact ⟨x, .nested (inner_of_select member (.inl nested)) contained, inside⟩
  | source member nested _ ih =>
    obtain ⟨x, contained, inside⟩ := ih
    exact ⟨x, .nested (inner_of_select member (.inr nested)) contained, inside⟩
  | operand member _ ih =>
    obtain ⟨x, contained, inside⟩ := ih
    refine ⟨x, .nested ?_ contained, inside⟩
    exact mem_append_left _ (mem_append_left _ (mem_inner_of_operand _ member))
  | entry member _ ih =>
    obtain ⟨x, contained, inside⟩ := ih
    exact ⟨x, .entry member contained, inside⟩

end Levels

theorem replaceRollupsUpTo_plain {c : Context} : ∀ (n : Nat) (q : Query), q.height ≤ n →
    (∀ name, q.Names name → Rollup.isName name = false) → c.replaceRollupsUpTo n q = pure q
  | 0, q, low, _ => by
    have := q.height_pos
    omega
  | n + 1, q, low, plain => by
    have keeps : KeepsTables (fun name => Rollup.isName name = false) (c.replaceRollup (c.replaceRollupsUpTo n)) := by
      intro r tables
      unfold replaceRollup
      split
      · rename_i name args ordinality label hints
        rw [tables name (some args) ordinality label hints rfl]
        rfl
      · rfl
    rw [replaceRollupsUpTo]
    refine Query.walk_eq_pure keeps q (fun name member => plain name (.here member)) fun x member => ?_
    have lower := Query.height_lt_queries member
    exact replaceRollupsUpTo_plain n x (by omega) fun name named => plain name (.nested member named)

/-- No name anywhere in a query is that of an object or of a roll-up. -/
def Untouched (c : Context) (q : Query) : Prop :=
  ∀ name, q.Names name →
    (∀ table, c.session.tableName name = .ok table → c.kind? table = none) ∧ Rollup.isName name = false

section Untouched

variable {c : Context} {q : Query} (untouched : c.Untouched q)
include untouched

theorem Untouched.tableFields (named : q.Names name) : c.tableFields name = [] := by
  unfold Context.tableFields
  split
  · rename_i table found
    rw [(untouched name named).1 table found]
  · rfl

theorem Untouched.strip : c.strip q = q := by
  rw [strip_eq_mapTables]
  refine q.mapTables_eq_self fun name named => ?_
  unfold stripName
  split
  · rfl
  · split
    · rfl
    · rename_i table found
      simp [(untouched name named).1 table found]

theorem Untouched.found {a : Analysis} (analyzed : c.analyze q = .ok a) {finding : Finding}
    (found : a.Found finding) : ∃ table, finding = .physical table := by
  obtain ⟨bound, mention, reads, means⟩ := found_is_read analyzed found
  obtain ⟨free, plain⟩ := untouched _ reads.named
  cases means with
  | object named object =>
    rw [free _ named] at object
    cases object
  | physical => exact ⟨_, rfl⟩
  | rollup rolled =>
    rw [Mention.name, rolled] at plain
    cases plain

theorem Untouched.replaceRollups : c.replaceRollups q = .ok (q, []) := by
  unfold Context.replaceRollups
  rw [replaceRollupsUpTo_plain _ q (by omega) fun name named => (untouched name named).2]
  rfl

theorem Untouched.passable {reach : Reach} {parent s : Scope} {a : Clauses} (holds : c.Holds reach parent q s a)
    (accepted : c.AcceptsWithin a.select.source) : c.Passable a := by
  obtain ⟨x, contained, member⟩ := holds.level
  intro scope blank
  apply sourceScope_blank accepted _ _ blank
  · intro name found
    exact untouched.tableFields (.of_contains contained (.of_mention (mentions_of_select member _ found)))
  · intro y nested z within name found
    have inside : y ∈ x.queries := Query.queries_of_inner (inner_of_select member (.inr nested))
    exact untouched.tableFields (.of_contains contained (.nested inside (.of_contains within (.of_mention found))))

end Untouched

section Stages

variable {c : Context} {q : Query} {a : Analysis}

theorem accepts_of_holds (analyzed : c.analyze q = .ok a) {parent s : Scope} {clauses : Clauses}
    (holds : c.Holds .visited parent q s clauses) : c.AcceptsWithin clauses.select.source := by
  obtain ⟨x, contained, member⟩ := holds.level
  constructor
  · exact accepts_of_select member (accepts_of_analyze analyzed contained).1
  · intro y nested z within
    have inside : x.Contains .visited z := .nested (inner_of_select member (.inr nested)) within
    exact accepts_of_analyze analyzed (contained.trans inside)

/-- Nothing of the layer is found. -/
structure FindsNothing (a : Analysis) : Prop where
  models : a.models = []
  metrics : a.metrics = []
  cumulativeMetrics : a.cumulativeMetrics = []
  views : a.views = []
  rollups : a.rollups = []

theorem Untouched.findsNothing (untouched : c.Untouched q) (analyzed : c.analyze q = .ok a) : FindsNothing a := by
  have objects : ∀ kind name, ¬a.Found (.object kind name) := by
    intro kind name found
    obtain ⟨_, physical⟩ := untouched.found analyzed found
    cases physical
  have rollups : ∀ r, ¬a.Found (.rollup r) := by
    intro r found
    obtain ⟨_, physical⟩ := untouched.found analyzed found
    cases physical
  constructor <;> refine eq_nil_iff_forall_not_mem.mpr fun found member => ?_
  · exact objects .model found member
  · exact objects .metric found member
  · exact objects .cumulativeMetric found member
  · exact objects .view found member
  · exact rollups found member

theorem compileModels_untouched (untouched : c.Untouched q) (analyzed : c.analyze q = .ok a)
    (sorted : With.sort q = q) : c.compileModels q = .ok q := by
  have nothing := untouched.findsNothing analyzed
  have views : c.addViews q = .ok q := by
    simp only [addViews, addViewsUpTo, analyzed, nothing.views, filter_nil, bind, Except.bind, pure, Except.pure]
  rw [compileModels, untouched.strip, views]
  change (c.analyze q >>= _) = _
  rw [analyzed]
  change (addModels c.layer a.models q >>= _) = _
  rw [nothing.models]
  exact congrArg Except.ok sorted

theorem joinQuery_untouched {find : JoinFinder} (quiet : find.Quiet)
    (passable : ∀ s a, c.Holds .written [] q s a → c.Passable a) : c.joinQuery find q = .ok (q, []) := by
  rw [joinQuery, joinQueryUpTo_idle quiet q.height q passable [] .nil]
  rfl

theorem compileMetrics_untouched (untouched : c.Untouched q) (analyzed : c.analyze q = .ok a)
    (sorted : With.sort q = q) : c.compileMetrics q = .ok q := by
  have nothing := untouched.findsNothing analyzed
  rw [compileMetrics, analyzed]
  simp only [nothing.metrics, nothing.cumulativeMetrics, nothing.rollups, bind, Except.bind, foldlM_nil, pure,
    Except.pure, untouched.replaceRollups, sorted]

/-- A query that names no object and no roll-up is compiled to itself, if its entries read no later one and if all
    that joining looks into is accepted. -/
theorem compile_eq_self (c : Context) (q : Query) (a : Analysis) (analyzed : c.analyze q = .ok a)
    (untouched : c.Untouched q)
    (ordered : q.recursive = true ∨ q.ctes.Pairwise fun cte later => With.nameOf later ∉ cte.query.relations)
    (aside : ∀ s b, c.Holds .written [] q s b → ¬c.Holds .visited [] q s b →
      ∃ scope, c.sourceScope b.select [] = .ok scope) : c.compile q = .ok q := by
  have sorted := With.sort_eq_self ordered
  have passable : ∀ s b, c.Holds .written [] q s b → c.Passable b := by
    intro s b holds
    refine untouched.passable holds ?_
    -- Joining walks into more than an analysis visits; for the rest there is the assumption.
    by_cases visited : c.Holds .visited [] q s b
    · exact accepts_of_holds analyzed visited
    · obtain ⟨scope, returned⟩ := aside s b holds visited
      exact accepts_of_sourceScope returned
  have relationships : c.compileRelationships q = .ok q := by
    rw [compileRelationships, joinRelationships, joinQuery_untouched (dereferences_quiet c.layer) passable]
    exact congrArg Except.ok sorted
  have groupKeys : c.compileGroupKeys q = .ok q := by
    rw [compileGroupKeys, joinQuery_untouched (groupKeyJoins_quiet c.layer) passable]
    exact congrArg Except.ok sorted
  simp only [compile, Stage.all, foldlM_cons, foldlM_nil, runStage, relationships, groupKeys,
    compileModels_untouched untouched analyzed sorted, compileMetrics_untouched untouched analyzed sorted, bind,
    Except.bind, pure, Except.pure]

end Stages

section Checking

variable {c : Context} {q : Query}

theorem untouched_of_relations
    (other : ∀ part ∈ q.relations, c.layer.kind? part = none ∧ part.map Char.toLower ≠ "roll_up") : c.Untouched q := by
  intro name named
  constructor
  · intro table found
    cases object : c.kind? table with
    | none => rfl
    | some kind =>
      have unknown := (other _ (named.mem_relations (last_of_tableName found))).1
      rw [layer_kind_of_kind object] at unknown
      cases unknown
  · unfold Rollup.isName
    split
    · rename_i part
      simpa using (other part.value (named.mem_relations rfl)).2
    · rfl

theorem accepted_of_selectsAt (accepted : ∀ b ∈ q.selectsAt q.height, ∃ scope, c.sourceScope b.select [] = .ok scope)
    {reach : Reach} {s : Scope} {b : Clauses} (holds : c.Holds reach [] q s b) :
    ∃ scope, c.sourceScope b.select [] = .ok scope := by
  obtain ⟨x, contained, member⟩ := holds.level
  exact accepted b (contained.mem_selectsAt member q.height (Nat.le_refl _))

end Checking

theorem raw_tables_kept : ∃ q, readQuery
      "WITH a AS (SELECT * FROM pg.t), b AS (SELECT x.y FROM a AS x) SELECT y FROM b WITH ((SELECT 1 FROM v)) GROUP BY 1" =
        .ok q ∧ compile ⟨.ofLayer ordersLayer, ordersLayer⟩ q = .ok q := by
  let c : Context := ⟨.ofLayer ordersLayer, ordersLayer⟩
  refine returns_one (p := fun q => ∃ a, c.analyze q = .ok a ∧
    (∀ part ∈ q.relations, c.layer.kind? part = none ∧ part.map Char.toLower ≠ "roll_up") ∧
    (q.ctes.Pairwise fun cte later => With.nameOf later ∉ cte.query.relations) ∧
    ∀ b ∈ q.selectsAt q.height, ∃ scope, c.sourceScope b.select [] = .ok scope) (by decide +kernel) fun q _ facts => ?_
  obtain ⟨a, analyzed, other, ordered, accepted⟩ := facts
  exact compile_eq_self c q a analyzed (untouched_of_relations other) (.inr ordered)
    fun s b holds _ => accepted_of_selectsAt accepted holds

/-- A query in a table hint is not analyzed, but joining looks into it and refuses what it does not know. And entries
    are moved in front of one that reads a table of the same name elsewhere. -/
theorem hint_refused_and_entry_moved : (∃ q a e, readQuery "SELECT * FROM t WITH ((SELECT 1 FROM f(1)))" = .ok q ∧
      analyze ⟨.ofLayer ordersLayer, ordersLayer⟩ q = .ok a ∧ Untouched ⟨.ofLayer ordersLayer, ordersLayer⟩ q ∧
      q.ctes = [] ∧ compile ⟨.ofLayer ordersLayer, ordersLayer⟩ q = .error e) ∧
    ∃ q a q', readQuery "WITH a AS (SELECT * FROM pg.b), b AS (SELECT 1 AS x) SELECT * FROM a" = .ok q ∧
      analyze ⟨.ofLayer ordersLayer, ordersLayer⟩ q = .ok a ∧ Untouched ⟨.ofLayer ordersLayer, ordersLayer⟩ q ∧
      (q.ctes.Pairwise fun cte later => ∀ name, cte.query.Names name → name.values ≠ [With.nameOf later]) ∧
      compile ⟨.ofLayer ordersLayer, ordersLayer⟩ q = .ok q' ∧ q' ≠ q := by
  let c : Context := ⟨.ofLayer ordersLayer, ordersLayer⟩
  constructor
  · have run : ∃ q, readQuery "SELECT * FROM t WITH ((SELECT 1 FROM f(1)))" = .ok q ∧ ∃ a, c.analyze q = .ok a ∧
        (∀ part ∈ q.relations, c.layer.kind? part = none ∧ part.map Char.toLower ≠ "roll_up") ∧ q.ctes.length = 0 ∧
          ¬ ∃ q', c.compile q = .ok q' := by
      decide +kernel
    obtain ⟨q, read, a, analyzed, other, entries, refused⟩ := run
    rw [length_eq_zero_iff] at entries
    cases compiled : c.compile q with
    | error e => exact ⟨q, a, e, read, analyzed, untouched_of_relations other, entries, compiled⟩
    | ok q' => exact absurd ⟨q', compiled⟩ refused
  · have run : ∃ q, readQuery "WITH a AS (SELECT * FROM pg.b), b AS (SELECT 1 AS x) SELECT * FROM a" = .ok q ∧
        ∃ a, c.analyze q = .ok a ∧ ∃ q', c.compile q = .ok q' ∧
          (∀ part ∈ q.relations, c.layer.kind? part = none ∧ part.map Char.toLower ≠ "roll_up") ∧
          With.names q' = ["b", "a"] ∧ (q.ctes.map fun cte =>
            (With.nameOf cte, cte.query.body.tableNames.map Path.values, cte.query.queries.isEmpty)) =
            [("a", [["pg", "b"]], true), ("b", [], true)] := by
      set_option synthInstance.maxSize 400 in decide +kernel
    obtain ⟨q, read, a, analyzed, q', compiled, other, moved, facts⟩ := run
    simp only [Prod.mk.injEq, map_eq_cons_iff, map_eq_nil_iff, List.isEmpty_iff] at facts
    obtain ⟨first, _, ctes, ⟨firstName, tables, closed⟩, second, _, rfl, ⟨secondName, _⟩, rfl⟩ := facts
    refine ⟨q, a, q', read, analyzed, untouched_of_relations other, ?_, compiled, ?_⟩
    · rw [ctes, pairwise_pair, secondName]
      obtain ⟨name, _, names, values, rfl⟩ := tables
      rintro written (⟨member⟩ | ⟨member, _⟩)
      · rw [names, mem_singleton] at member
        rw [member, values]
        decide
      · rw [closed] at member
        cases member
    · rintro rfl
      rw [With.names, ctes, map_cons, firstName] at moved
      simp at moved

end Context

end SemanticLayer
