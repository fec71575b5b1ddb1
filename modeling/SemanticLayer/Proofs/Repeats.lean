import SemanticLayer.Proofs.Success

/-! # Repeated analyses

Whether an analysis returns depends on a scope only by what the names in expressions mean there, and on a table only by
its fields and by whether it can be looked up. WITH names have no part in that: they decide what is noted of a table,
never which fields it has. So a query is also analyzed where other WITH names are visible, and with its tables written
by other names for the same fields. Only an analysis that returns is repeated: another name may be accepted where the
old one is refused.
-/

namespace SemanticLayer

open Sql List

section Unchanged

variable (g : Query → Query)

@[simp] theorem columnName?_mapQueries (e : Expr Query) : columnName? (e.mapQueries g) = columnName? e := by
  cases e <;> rfl

theorem outputNames_mapQueries (items : List (SelectItem Query)) :
    outputNames (items.map (SelectItem.mapQueries g)) = outputNames items := by
  unfold outputNames
  rw [filterMap_map]
  congr 1
  funext item
  cases item with
  | wildcard | qualifiedWildcard | aliased => rfl
  | expr e => cases e <;> rfl

namespace Context

theorem skipsKey_mapQueries (outputs : List String) (source : Scope) (e : Expr Query) :
    skipsKey outputs source (e.mapQueries g) = skipsKey outputs source e := by
  cases e <;> rfl

theorem isOutputName_mapQueries (outputs : List String) (e : Expr Query) :
    isOutputName outputs (e.mapQueries g) = isOutputName outputs e := by
  cases e <;> rfl

theorem groupKeys_mapTables (f : Path → Path) (s : Select Query) (source : Scope) :
    groupKeys (s.mapTables f g) source = (groupKeys s source).map (Expr.mapQueries g) := by
  unfold groupKeys
  cases grouped : s.groupBy with
  | all => simp [Select.mapTables, GroupBy.mapQueries, grouped]
  | exprs keys modifiers =>
    simp only [Select.mapTables, GroupBy.mapQueries, grouped, outputNames_mapQueries, filter_map,
      Function.comp_def, skipsKey_mapQueries]

theorem orderNames_mapTables (f : Path → Path) (b : Body Query) : orderNames (b.mapTables f g) = orderNames b := by
  cases b with
  | select s => exact outputNames_mapQueries g s.items
  | query | setOp | values | table | write => rfl

theorem orderKeys_mapTables (f : Path → Path) (q : Query) :
    orderKeys (q.mapTables f) = (orderKeys q).map (Expr.mapQueries (Query.mapTables f)) := by
  unfold orderKeys
  rw [Query.body_mapTables, orderNames_mapTables, Query.mapTables_parts]
  simp only [map_map, filter_map, Function.comp_def, isOutputName_mapQueries]

end Context

theorem Rollup.resolve_mapQueries {l : Layer} {args : List (Expr Query)} {r : Rollup}
    (resolved : resolve l args = .ok r) : resolve l (args.map (Expr.mapQueries g)) = .ok r := by
  cases names : args.mapM argument with
  | error fault =>
    rw [resolve, ofArguments, names] at resolved
    cases resolved
  | ok read =>
    have names' : (args.map (Expr.mapQueries g)).mapM argument = .ok read := by
      rw [mapM_argument_eq_ok, map_map, ← mapM_argument_eq_ok.mp names]
      simp [Function.comp_def]
    rw [resolve, ofArguments, names] at resolved
    rw [resolve, ofArguments, names']
    exact resolved

end Unchanged

namespace Scope

/-- Names in expressions mean the same in two scopes. -/
def Agrees (s s' : Scope) : Prop := ∀ name, s.resolve name = s'.resolve name

variable {s s' : Scope}

theorem Agrees.cons (agrees : s.Agrees s') {frame frame' : Frame} (same : frame.fields = frame'.fields) :
    Agrees (frame :: s) (frame' :: s') := by
  intro name
  rw [resolve, resolve, same, agrees name]

theorem agrees_named (named : List String) (s : Scope) : Agrees ({ named } :: s) s := fun _ => rfl

theorem Agrees.firstHead (agrees : s.Agrees s') (heads : List (DottedName × DottedName)) :
    s.firstHead heads = s'.firstHead heads := by
  induction heads with
  | nil => rfl
  | cons head heads ih => rw [Scope.firstHead, Scope.firstHead, agrees, ih]

theorem Agrees.reference (agrees : s.Agrees s') (name : DottedName) : s.reference name = s'.reference name := by
  rw [Scope.reference, Scope.reference, agrees, agrees.firstHead]

theorem Agrees.clear (agrees : s.Agrees s') {name : DottedName} (clear : s'.Clear name) : s.Clear name := by
  obtain ⟨r, meaning⟩ := clear
  exact ⟨r, (agrees.reference name).trans meaning⟩

theorem Agrees.symm (agrees : s.Agrees s') : s'.Agrees s := fun name => (agrees name).symm

theorem Agrees.trans {s'' : Scope} (first : s.Agrees s') (second : s'.Agrees s'') : s.Agrees s'' :=
  fun name => (first name).trans (second name)

theorem Agrees.groupKeys (agrees : s.Agrees s') (select : Select Query) :
    Context.groupKeys select s = Context.groupKeys select s' := by
  have skips : ∀ outputs e, Context.skipsKey outputs s e = Context.skipsKey outputs s' e := by
    intro outputs e
    simp only [Context.skipsKey, agrees _]
  simp only [Context.groupKeys, skips]

end Scope

namespace Context

/-- If all of some sites can be visited, so can all of some others. -/
def Follows (c : Context) (sites sites' : List Site) : Prop := c.PassAll sites → c.PassAll sites'

/-- Other names for tables that have the same fields. -/
structure Faithful (c : Context) (f : Path → Path) : Prop where
  named : ∀ name, (∃ table, c.session.tableName name = .ok table) → ∃ table, c.session.tableName (f name) = .ok table
  fields : ∀ name, c.tableFields (f name) = c.tableFields name
  rollup : ∀ name, Rollup.isName name = true → f name = name

theorem Faithful.id (c : Context) : c.Faithful id := ⟨fun _ named => named, fun _ => rfl, fun _ _ => rfl⟩

section Following

variable {c : Context} {f : Path → Path} {g : Query → Query} {steps steps' : Query → Scope → List Site}
  {scope scope' : Scope}

namespace Follows

theorem refl (sites : List Site) : c.Follows sites sites := fun passes => passes

theorem single {site site' : Site} (follows : c.Passes site → c.Passes site') : c.Follows [site] [site'] :=
  fun passes => forall_mem_singleton.mpr (follows (forall_mem_singleton.mp passes))

theorem append {l l' m m' : List Site} (first : c.Follows l l') (rest : c.Follows m m') :
    c.Follows (l ++ m) (l' ++ m') := by
  intro passes
  obtain ⟨front, back⟩ := forall_mem_append.mp passes
  exact forall_mem_append.mpr ⟨first front, rest back⟩

theorem flatMap {α β : Type} {f : α → List Site} {f' : β → List Site} {h : α → β} {l : List α}
    (each : ∀ a ∈ l, c.Follows (f a) (f' (h a))) : c.Follows (l.flatMap f) ((l.map h).flatMap f') := by
  intro passes
  rw [flatMap_map]
  exact forall_mem_flatMap.mpr fun a member => each a member (forall_mem_flatMap.mp passes a member)

theorem refused {e : CompileError} {sites : List Site} : c.Follows [(scope, .refused e)] sites :=
  fun passes => (forall_mem_singleton.mp passes).elim

end Follows

/-- A nested query can be visited wherever names mean the same. -/
def FollowsNested (c : Context) (steps steps' : Query → Scope → List Site) (x x' : Query) : Prop :=
  ∀ scope scope', scope.Agrees scope' → c.Follows (steps x scope) (steps' x' scope')

theorem exprSites_follow (agrees : scope.Agrees scope') (e : Expr Query)
    (inner : ∀ x ∈ e.queries, c.FollowsNested steps steps' x (g x)) :
    c.Follows (exprSites steps scope e) (exprSites steps' scope' (e.mapQueries g)) := by
  unfold exprSites
  rw [Expr.queries_mapQueries]
  refine .append (.single fun passes => ?_) (.flatMap fun x member => inner x member _ _ agrees)
  have clear := Scope.fieldsOf_eq_ok.mp passes
  refine Scope.fieldsOf_eq_ok.mpr ?_
  rw [Expr.names_mapQueries]
  exact fun name member => agrees.symm.clear (clear name member)

theorem exprsSites_follow (agrees : scope.Agrees scope') (exprs : List (Expr Query))
    (inner : ∀ e ∈ exprs, ∀ x ∈ e.queries, c.FollowsNested steps steps' x (g x)) :
    c.Follows (exprs.flatMap (exprSites steps scope))
      ((exprs.map (Expr.mapQueries g)).flatMap (exprSites steps' scope')) :=
  .flatMap fun e member => exprSites_follow agrees e (inner e member)

theorem selectSites_follow (agrees : scope.Agrees scope') (item : SelectItem Query)
    (inner : ∀ x ∈ item.inner .visited, c.FollowsNested steps steps' x (g x)) :
    c.Follows (selectSites steps scope item) (selectSites steps' scope' (item.mapQueries g)) := by
  have output (e : Expr Query) (label label' : String) :
      c.Follows [(scope, .output e label)] [(scope', .output (e.mapQueries g) label')] := by
    refine .single fun passes name named => ?_
    rw [columnName?_mapQueries] at named
    rw [← agrees name]
    exact passes name named
  cases item with
  | wildcard | qualifiedWildcard => exact .single fun _ => trivial
  | expr e | aliased e label => exact .append (output e _ _) (exprSites_follow agrees e inner)

theorem clauseSites_follow (agrees : scope.Agrees scope') (s : Select Query)
    (inner : ∀ x ∈ s.clauseQueries .visited, c.FollowsNested steps steps' x (g x)) :
    c.Follows (clauseSites steps s scope) (clauseSites steps' (s.mapTables f g) scope') := by
  simp only [Select.clauseQueries, forall_mem_append] at inner
  obtain ⟨⟨⟨⟨items, filter⟩, groupBy⟩, having⟩, qualify⟩ := inner
  refine .append (.append (.flatMap fun item member => ?_) ?_) ?_
  · exact selectSites_follow agrees item fun x found => items x (mem_flatMap.mpr ⟨item, member, found⟩)
  · rw [Select.mapTables, Option.toList_map]
    rw [queriesOf_eq, forall_mem_flatMap] at filter
    refine .flatMap fun e member passes => ?_
    -- A condition that can be read has predicates.
    have readable := exprSites_follow agrees e (filter e member) (forall_mem_append.mp passes).1
    have clear := Scope.fieldsOf_eq_ok.mp (readable _ mem_cons_self)
    exact forall_mem_append.mpr ⟨readable, forall_mem_singleton.mpr (Scope.predicatesOf_ok clear)⟩
  · rw [groupKeys_mapTables, ← agrees.groupKeys, Select.mapTables, Option.toList_map, Option.toList_map,
      ← map_append, ← map_append]
    rw [← groupKeys_queries s scope, forall_mem_flatMap] at groupBy
    rw [queriesOf_eq, forall_mem_flatMap] at having qualify
    exact exprsSites_follow agrees _
      (forall_mem_append.mpr ⟨groupBy, forall_mem_append.mpr ⟨having, qualify⟩⟩)

mutual

theorem relationFields_faithful (faithful : c.Faithful f) : ∀ r : Relation Query,
    c.relationFields (r.mapTables f g) = c.relationFields r
  | .table name none _ label _ => by
    rw [Relation.mapTables_table, relationFields, relationFields, faithful.fields]
  | .nested first joins label => by
    rw [Relation.mapTables_nested, relationFields, relationFields, relationFields_faithful faithful first,
      joinsFields_faithful faithful joins]
  | .table _ (some _) _ _ _ | .derived _ _ _ | .unnest _ _ | .pivot _ _ | .other _ => rfl

theorem joinsFields_faithful (faithful : c.Faithful f) : ∀ js : List (Join Query),
    c.joinsFields (Join.mapTablesAll f g js) = c.joinsFields js
  | [] => rfl
  | .mk _ _ relation _ :: rest => by
    rw [Join.mapTablesAll_cons, joinsFields, joinsFields, relationFields_faithful faithful relation,
      joinsFields_faithful faithful rest]

end

variable (faithful : c.Faithful f)

include faithful

theorem sourceFields_faithful (source : List (FromItem Query)) :
    c.sourceFields (source.map (FromItem.mapTables f g)) = c.sourceFields source := by
  rw [sourceFields, flatMap_map]
  refine flatMap_congr fun item _ => ?_
  rw [itemFields, itemFields, FromItem.mapTables, relationFields_faithful faithful, joinsFields_faithful faithful]

theorem bodyFields_faithful {inner inner' : Query → List Field} (b : Body Query)
    (same : ∀ x ∈ b.inner .visited, inner' (g x) = inner x) :
    c.bodyFields inner' (b.mapTables f g) = c.bodyFields inner b := by
  cases b with
  | select s => exact sourceFields_faithful faithful s.source
  | query x => exact same x (mem_singleton_self x)
  | setOp | values | table | write => rfl

mutual

theorem relationSites_follow (agrees : scope.Agrees scope') : ∀ r : Relation Query,
    (∀ x ∈ r.inner .visited, c.FollowsNested steps steps' x (g x)) →
    c.Follows (c.relationSites steps scope r) (c.relationSites steps' scope' (r.mapTables f g))
  | .table name (some args) _ _ _, _ => by
    rw [Relation.mapTables_call, relationSites, relationSites]
    refine .single ?_
    rintro ⟨named, r, resolved⟩
    refine ⟨?_, r, Rollup.resolve_mapQueries g resolved⟩
    rwa [faithful.rollup name named]
  | .table name none _ label _, _ => by
    rw [Relation.mapTables_table, relationSites, relationSites]
    exact .single (faithful.named name)
  | .derived _ query _, inner => by
    rw [Relation.mapTables_derived, relationSites, relationSites]
    exact inner query (by simp [Relation.inner]) scope scope' agrees
  | .nested first joins _, inner => by
    simp only [Relation.inner, forall_mem_append] at inner
    rw [Relation.mapTables_nested, relationSites, relationSites, relationFields_faithful faithful]
    exact .append (relationSites_follow agrees first inner.1) (joinsSites_follow agrees _ joins inner.2)
  | .unnest arrays _, inner => by
    simp only [Relation.inner, Expr.queriesAll_eq_flatMap, forall_mem_flatMap] at inner
    rw [Relation.mapTables_unnest, relationSites, relationSites]
    exact exprsSites_follow (agrees.cons rfl) arrays inner
  | .pivot _ _, _ | .other _, _ => by
    rw [relationSites]
    exact .refused

theorem joinsSites_follow (agrees : scope.Agrees scope') : ∀ (left : List Field) (js : List (Join Query)),
    (∀ x ∈ Join.innerAll .visited js, c.FollowsNested steps steps' x (g x)) →
    c.Follows (c.joinsSites steps scope left js) (c.joinsSites steps' scope' left (Join.mapTablesAll f g js))
  | left, [], _ => .refl _
  | left, .mk _ _ relation constraint :: rest, inner => by
    simp only [Join.innerAll, Reach.aside, append_nil, forall_mem_append] at inner
    rw [Join.mapTablesAll_cons, joinsSites, joinsSites, relationFields_faithful faithful]
    refine .append (.append (relationSites_follow agrees relation inner.1.1) ?_)
      (joinsSites_follow agrees _ rest inner.2)
    cases constraint with
    | condition e =>
      refine exprsSites_follow (agrees.cons rfl) [e] fun e member => ?_
      cases mem_singleton.mp member
      exact inner.1.2
    | columns | natural | none => exact .refl _

end

theorem sourceSites_follow (agrees : scope.Agrees scope') (source : List (FromItem Query))
    (inner : ∀ x ∈ source.flatMap (FromItem.inner .visited), c.FollowsNested steps steps' x (g x)) :
    c.Follows (c.sourceSites steps scope source)
      (c.sourceSites steps' scope' (source.map (FromItem.mapTables f g))) := by
  refine .flatMap fun item member => ?_
  have queries := forall_mem_append.mp fun x listed => inner x (mem_flatMap.mpr ⟨item, member, listed⟩)
  rw [itemSites, itemSites, FromItem.mapTables, relationFields_faithful faithful]
  exact .append (relationSites_follow faithful agrees item.first queries.1)
    (joinsSites_follow faithful agrees _ item.joins queries.2)

theorem bodySites_follow (agrees : scope.Agrees scope') : ∀ b : Body Query,
    (∀ x ∈ b.inner .visited, c.FollowsNested steps steps' x (g x)) →
    c.Follows (c.bodySites steps scope b) (c.bodySites steps' scope' (b.mapTables f g))
  | .select s, inner => by
    simp only [Body.inner, Select.inner, Reach.aside, append_nil, forall_mem_append] at inner
    have fields : c.sourceFields (s.mapTables f g).source = c.sourceFields s.source :=
      sourceFields_faithful faithful s.source
    rw [Body.mapTables, bodySites, bodySites, fields]
    exact .append (sourceSites_follow faithful agrees s.source inner.1) (clauseSites_follow (agrees.cons rfl) s inner.2)
  | .query q, inner => inner q mem_cons_self scope scope' agrees
  | .setOp _ left right, inner => by
    simp only [Body.inner, forall_mem_append] at inner
    exact .append (bodySites_follow agrees left inner.1) (bodySites_follow agrees right inner.2)
  | .values rows _, inner => by
    simp only [Body.inner, forall_mem_flatMap] at inner
    rw [Body.mapTables, bodySites, bodySites, ← map_flatten]
    refine exprsSites_follow (agrees.cons rfl) rows.flatten fun e member => ?_
    obtain ⟨row, listed, member⟩ := mem_flatten.mp member
    exact inner row listed e member
  | .table _, _ | .write _, _ => .refused

end Following

theorem within_agrees (q : Query) (scope : Scope) : (within q scope).Agrees scope := by
  unfold within
  split
  · exact fun _ => rfl
  · exact Scope.agrees_named _ scope

theorem entry_passes {c : Context} {steps : Query → Scope → List Site} {recursive : Bool} {scope : Scope}
    {ctes : List (Cte Query)} (passes : c.PassAll (withSites steps recursive scope [] ctes)) {cte : Cte Query}
    (member : cte ∈ ctes) : ∃ named, c.PassAll (steps cte.query ({ named } :: scope)) := by
  obtain ⟨front, back, rfl⟩ := append_of_mem member
  exact ⟨_, fun site inside => passes site (entry_subset_withSites recursive [] front cte back inside)⟩

/-- A query can be visited if another one is that differs in the names of its tables and in its WITH clause, and if the
entries of its WITH clause can be visited. -/
theorem sitesAt_follow {c : Context} {f : Path → Path} (faithful : c.Faithful f) {g : Query → Query} {n n' : Nat}
    {q q' : Query} (body : q'.body = q.body.mapTables f g) (order : orderKeys q' = (orderKeys q).map (Expr.mapQueries g))
    (names : (With.names q').Sublist (With.names q))
    (inner : ∀ x ∈ q.inner .visited, c.FollowsNested (c.sitesAt n) (c.sitesAt n') x (g x) ∧
      c.fieldsAt n' (g x) = c.fieldsAt n x)
    (entries : ∀ cte' ∈ q'.ctes, (∀ scope, c.PassAll (c.sitesAt n' cte'.query scope)) ∨
      ∃ cte ∈ q.ctes, c.FollowsNested (c.sitesAt n) (c.sitesAt n') cte.query cte'.query) :
    c.FollowsNested (c.sitesAt (n + 1)) (c.sitesAt (n' + 1)) q q' ∧ c.fieldsAt (n' + 1) q' = c.fieldsAt (n + 1) q := by
  simp only [Query.inner, Reach.aside, append_nil, forall_mem_append] at inner
  have same := bodyFields_faithful faithful q.body fun x member => (inner.1 x member).2
  refine ⟨fun scope scope' agrees passes => ?_, by rw [fieldsAt, fieldsAt, body, same]⟩
  have inside : (within q scope).Agrees (within q' scope') :=
    (within_agrees q scope).trans (agrees.trans (within_agrees q' scope').symm)
  obtain ⟨before, rest⟩ := forall_mem_append.mp passes
  obtain ⟨own, _⟩ := forall_mem_append.mp rest
  have distinct : (With.names q).Nodup := nodup_of_withSites _ [] _ before nodup_nil
  refine forall_mem_append.mpr ⟨?_, forall_mem_append.mpr ⟨?_, forall_mem_singleton.mpr trivial⟩⟩
  · refine withSites_pass q'.recursive [] q'.ctes (distinct.sublist names) fun cte' member' named => ?_
    rcases entries cte' member' with sure | ⟨cte, member, follows⟩
    · exact sure _
    · obtain ⟨named', visited⟩ := entry_passes before member
      exact follows ({ named := named' } :: scope) _ (agrees.cons rfl) visited
  · rw [body, order, same]
    refine Follows.append (bodySites_follow faithful inside q.body fun x member => (inner.1 x member).1)
      (exprsSites_follow (inside.cons rfl) _ fun e member x found => (inner.2 x ?_).1) own
    rw [← orderKeys_queries]
    exact mem_flatMap.mpr ⟨e, member, found⟩

/-- A query can be visited with its tables under other names that have the same fields. -/
theorem sitesAt_mapTables {c : Context} {f : Path → Path} (faithful : c.Faithful f) : ∀ (n n' : Nat) (q : Query),
    q.height ≤ n → (q.mapTables f).height ≤ n' → c.FollowsNested (c.sitesAt n) (c.sitesAt n') q (q.mapTables f) ∧
      c.fieldsAt n' (q.mapTables f) = c.fieldsAt n q
  | 0, n', q, low, _ => by
    have := q.height_pos
    omega
  | n + 1, 0, q, _, low => by
    have := (q.mapTables f).height_pos
    omega
  | n + 1, n' + 1, q, low, low' => by
    -- The two queries may differ in height, so the induction is on both bounds at once.
    refine sitesAt_follow faithful (Query.body_mapTables f q) (orderKeys_mapTables f q) ?_ (fun x member => ?_)
      fun cte' member' => ?_
    · rw [Query.names_mapTables]
    · have member' : x.mapTables f ∈ (q.mapTables f).inner .visited := by
        rw [Query.inner_mapTables]
        exact mem_map_of_mem member
      have lower := Query.height_lt_inner member
      have lower' := Query.height_lt_inner member'
      exact sitesAt_mapTables faithful n n' x (by omega) (by omega)
    · have lower' := Query.height_lt_ctes member'
      rw [Query.ctes_mapTables] at member'
      obtain ⟨cte, member, rfl⟩ := mem_map.mp member'
      have lower := Query.height_lt_ctes member
      dsimp only at lower'
      exact .inr ⟨cte, member, (sitesAt_mapTables faithful n n' cte.query (by omega) (by omega)).1⟩

end Context

end SemanticLayer
