import SemanticLayer.Analysis.Query
import SemanticLayer.Proofs.Judgement
import SemanticLayer.Proofs.Reads

/-! # What an analysis visits

The fields of a FROM clause depend on the tables it names and on their aliases, and on nothing else: not on the scope
around it, and not on the queries in it. So the scope of everything in a query is known beforehand, and an analysis
comes down to a list of sites, each with a scope. Whether a site can be visited does not depend on what was noted
before, and what is noted is a fold along the list. Main statement: `Context.visitQuery_eq_ok`.
-/

namespace SemanticLayer

open Sql List

def Sql.JoinConstraint.exprs : JoinConstraint Query → List (Expr Query)
  | .condition e => [e]
  | .columns _ | .natural | .none => []

/-- Something that an analysis looks at by itself. -/
inductive Part where
  | table (name : Path)
  /-- A table function with its arguments. -/
  | call (name : Path) (args : List (Expr Query))
  /-- The names of an expression. -/
  | names (e : Expr Query)
  /-- The fields that a wildcard stands for. -/
  | columns (fields : List Field)
  /-- An output column and what it is called. -/
  | output (e : Expr Query) (label : String)
  /-- A WHERE condition. -/
  | filter (e : Expr Query)
  /-- A construct that is not accepted. -/
  | refused (e : CompileError)
  /-- The end of a query. -/
  | finish

/-- A part of a query and the scope it is visited in. -/
abbrev Site := Scope × Part

namespace Context

variable (c : Context)

def tableFields (name : Path) : List Field :=
  match c.session.tableName name with
  | .ok table =>
    match c.kind? table with
    | some kind => c.objectFields table kind
    | none => []
  | .error _ => []

mutual

def relationFields : Relation Query → List Field
  | .table name none _ label _ => relabeled label (c.tableFields name)
  | .nested first joins label => relabeled label (relationFields first ++ joinsFields joins)
  | .table _ (some _) _ _ _ | .derived _ _ _ | .unnest _ _ | .pivot _ _ | .other _ => []

def joinsFields : List (Join Query) → List Field
  | [] => []
  | .mk _ _ relation _ :: rest => relationFields relation ++ joinsFields rest

end

def itemFields (item : FromItem Query) : List Field := c.relationFields item.first ++ c.joinsFields item.joins

def sourceFields (source : List (FromItem Query)) : List Field := source.flatMap c.itemFields

/-- The fields that the ORDER BY of a query sees, given those of a query in parentheses. -/
def bodyFields (inner : Query → List Field) : Body Query → List Field
  | .select s => c.sourceFields s.source
  | .query q => inner q
  | .setOp _ _ _ | .values _ _ | .table _ | .write _ => []

/-- The fields of a query nested at most `n` deep. -/
def fieldsAt : Nat → Query → List Field
  | 0, _ => []
  | n + 1, q => c.bodyFields (fieldsAt n) q.body

/-- The scope inside a query, where its WITH names are visible. -/
def within (q : Query) (scope : Scope) : Scope :=
  match q.ctes with
  | [] => scope
  | ctes => { named := ctes.map With.nameOf } :: scope

/-- The WITH names that an entry sees behind some earlier ones. -/
def seen (recursive : Bool) (earlier : List String) (cte : Cte Query) : List String :=
  if recursive then earlier ++ [With.nameOf cte] else earlier

section Sites

/- The sites in nested queries. -/
variable (steps : Query → Scope → List Site)

/-- An expression: its names, then the queries in it. -/
def exprSites (scope : Scope) (e : Expr Query) : List Site :=
  (scope, .names e) :: e.queries.flatMap (steps · scope)

mutual

def relationSites (scope : Scope) : Relation Query → List Site
  | .table name (some args) _ _ _ => [(scope, .call name args)]
  | .table name none _ _ _ => [(scope, .table name)]
  | .derived _ query _ => steps query scope
  | .nested first joins _ => relationSites scope first ++ joinsSites scope (c.relationFields first) joins
  | .unnest arrays _ => arrays.flatMap (exprSites steps ({} :: scope))
  | .pivot source turn => [(scope, .refused (.unsupportedRelation (Relation.render (.pivot source turn))))]
  | .other construct => [(scope, .refused (.unsupportedRelation (Relation.render (.other construct))))]

def joinsSites (scope : Scope) (left : List Field) : List (Join Query) → List Site
  | [] => []
  | .mk _ _ relation constraint :: rest =>
    let fields := left ++ c.relationFields relation
    relationSites scope relation ++ constraint.exprs.flatMap (exprSites steps ({ fields } :: scope)) ++
      joinsSites scope fields rest

end

def itemSites (scope : Scope) (item : FromItem Query) : List Site :=
  c.relationSites steps scope item.first ++ c.joinsSites steps scope (c.relationFields item.first) item.joins

def sourceSites (scope : Scope) (source : List (FromItem Query)) : List Site :=
  source.flatMap (c.itemSites steps scope)

def selectSites (source : Scope) : SelectItem Query → List Site
  | .wildcard _ => [(source, .columns source.fields)]
  | .qualifiedWildcard name _ =>
    [(source, .columns (source.fields.filter fun field => field.answersTo (name.values ++ [field.name])))]
  | .expr e => (source, .output e e.render) :: exprSites steps source e
  | .aliased e label => (source, .output e label.value) :: exprSites steps source e

/-- The sites in the clauses of a SELECT that see its FROM clause. -/
def clauseSites (s : Select Query) (source : Scope) : List Site :=
  s.items.flatMap (selectSites steps source) ++
    s.filter.toList.flatMap (fun e => exprSites steps source e ++ [(source, .filter e)]) ++
    (groupKeys s source ++ (s.having.toList ++ s.qualify.toList)).flatMap (exprSites steps source)

def bodySites (scope : Scope) : Body Query → List Site
  | .select s => c.sourceSites steps scope s.source ++
    clauseSites steps s ({ fields := c.sourceFields s.source } :: scope)
  | .query q => steps q scope
  | .setOp _ left right => bodySites scope left ++ bodySites scope right
  | .values rows _ => rows.flatten.flatMap (exprSites steps ({} :: scope))
  | .table name => [(scope, .refused (.unsupportedBody (Body.render (.table name))))]
  | .write w => [(scope, .refused (.unsupportedBody (Body.render (.write w))))]

/-- The sites in the entries of a WITH clause, given the names of the earlier ones. -/
def withSites (recursive : Bool) (scope : Scope) (earlier : List String) : List (Cte Query) → List Site
  | [] => []
  | cte :: rest =>
    let name := cte.name.value
    (if earlier.contains name then [(scope, .refused (.duplicateWith name))] else []) ++
      steps cte.query ({ named := seen recursive earlier cte } :: scope) ++
      withSites recursive scope (earlier ++ [name]) rest

/-- The sites in the body and the ORDER BY of a query, given the fields of a query in parentheses. -/
def ownSites (inner : Query → List Field) (q : Query) (scope : Scope) : List Site :=
  c.bodySites steps (within q scope) q.body ++
    (orderKeys q).flatMap (exprSites steps ({ fields := c.bodyFields inner q.body } :: within q scope)) ++
    [({ fields := c.bodyFields inner q.body } :: scope, .finish)]

/-- The sites in a query: those of its WITH clause come first. -/
def sitesWith (inner : Query → List Field) (q : Query) (scope : Scope) : List Site :=
  withSites steps q.recursive scope [] q.ctes ++ c.ownSites steps inner q scope

end Sites

/-- The sites in a query nested at most `n` deep. -/
def sitesAt : Nat → Query → Scope → List Site
  | 0, _, _ => []
  | n + 1, q, scope => c.sitesWith (sitesAt n) (c.fieldsAt n) q scope

abbrev sites (q : Query) : Scope → List Site := c.sitesAt q.height q

def visit : Site → Analyzer PUnit
  | (scope, .table name) => discard (c.visitTable name scope)
  | (_, .call name args) => do
    if !Rollup.isName name then throw (.tableFunction name.render)
    let rollup ← Rollup.resolve c.layer args
    modify (Analysis.addRollup rollup)
  | (scope, .names e) => do
    let fields ← scope.fieldsOf e
    fields.forM fun field => modify (Analysis.addRead field)
  | (_, .columns fields) => fields.forM fun field => modify (Analysis.addRead field)
  | (scope, .output e label) => recordType e label scope
  | (scope, .filter e) => do
    let predicates ← predicatesOf scope e
    predicates.forM fun predicate => modify (Analysis.addPredicate predicate)
  | (_, .refused e) => throw e
  | (scope, .finish) => modify (Analysis.addScope scope)

def visitAll (sites : List Site) : Analyzer PUnit := sites.forM c.visit

section Equations

variable {c} {nested : Query → Scope → Analyzer Scope} {steps : Query → Scope → List Site}
  {inner : Query → List Field} {scope : Scope}

theorem discard_bind {α β : Type} (x : Analyzer α) (f : PUnit → Analyzer β) :
    (discard x >>= f) = x >>= fun _ => f ⟨⟩ := by
  rw [Functor.discard, LawfulFunctor.map_const, Function.comp_apply, map_eq_pure_bind, bind_assoc]
  simp only [pure_bind, Function.const_apply]

theorem visitAll_cons (site : Site) (rest : List Site) :
    c.visitAll (site :: rest) = c.visit site >>= fun _ => c.visitAll rest := rfl

theorem visitAll_append (front back : List Site) :
    c.visitAll (front ++ back) = c.visitAll front >>= fun _ => c.visitAll back :=
  forM_append

theorem visitAll_single (site : Site) : c.visitAll [site] = c.visit site := bind_pure _

theorem visitAll_flatMap {α : Type} (f : α → List Site) (l : List α) :
    c.visitAll (l.flatMap f) = l.forM fun a => c.visitAll (f a) := by
  induction l with
  | nil => rfl
  | cons a l ih =>
    rw [flatMap_cons, visitAll_append, ih]
    rfl

/-- How nested queries are visited: site by site, and their fields are known. -/
def Itemizes (c : Context) (nested : Query → Scope → Analyzer Scope) (steps : Query → Scope → List Site)
    (inner : Query → List Field) : Prop :=
  ∀ q scope, nested q scope = c.visitAll (steps q scope) >>= fun _ => pure ({ fields := inner q } :: scope)

theorem tableFields_of_isWithName {name : Path} (bound : c.isWithName name scope = true) : c.tableFields name = [] := by
  unfold isWithName at bound
  split at bound
  · rename_i part
    simp only [Bool.and_eq_true, Option.isNone_iff_eq_none] at bound
    have free : c.kind? ⟨c.session.catalog, c.session.schema, part.value⟩ = none := by
      unfold kind?
      split
      · exact bound.2
      · rfl
    simp [tableFields, Session.tableName, Path.values, free]
  · cases bound

theorem visitTable_eq (name : Path) : c.visitTable name scope =
    c.visit (scope, .table name) >>= fun _ => pure (c.tableFields name) := by
  rw [visit, discard_bind]
  unfold visitTable
  split
  · rename_i bound
    rw [pure_bind, tableFields_of_isWithName bound]
  · cases named : c.session.tableName name with
    | error e => rfl
    | ok table =>
      have lifted : (liftM (Except.ok table : Except CompileError TableName) : Analyzer TableName) = pure table := rfl
      cases kind : c.kind? table with
      | some | none => simp only [tableFields, named, kind, lifted, bind_assoc, pure_bind]

variable (itemizes : c.Itemizes nested steps inner)

include itemizes

theorem Itemizes.bind {α : Type} (q : Query) (f : PUnit → Analyzer α) :
    (discard (nested q scope) >>= f) = c.visitAll (steps q scope) >>= f := by
  rw [discard_bind, itemizes, bind_assoc]
  simp only [pure_bind]

theorem Itemizes.discard (q : Query) : Functor.discard (nested q scope) = c.visitAll (steps q scope) := by
  rw [← bind_pure (Functor.discard _), itemizes.bind, bind_pure]

theorem visitExpr_eq (e : Expr Query) : visitExpr nested e scope = c.visitAll (exprSites steps scope e) := by
  simp only [visitExpr, itemizes.discard, exprSites, visitAll_cons, visitAll_flatMap, visit, bind_assoc]

theorem visitExprs_eq (exprs : List (Expr Query)) :
    (exprs.forM fun e => visitExpr nested e scope) = c.visitAll (exprs.flatMap (exprSites steps scope)) := by
  simp only [visitAll_flatMap, visitExpr_eq itemizes]

mutual

theorem visitRelation_eq : ∀ r : Relation Query, c.visitRelation nested scope r =
      c.visitAll (c.relationSites steps scope r) >>= fun _ => pure (c.relationFields r)
  | .table name (some args) _ _ _ => by
    rw [visitRelation, relationSites, relationFields, visitAll_single, visit]
    split <;> simp only [bind_assoc]
  | .table name none _ label _ => by
    rw [visitRelation, relationSites, relationFields, visitAll_single, visitTable_eq, bind_assoc]
    simp only [pure_bind]
  | .derived _ query _ => by
    rw [visitRelation, relationSites, relationFields, itemizes.bind]
  | .nested first joins label => by
    rw [visitRelation, relationSites, relationFields, visitAll_append, visitRelation_eq first]
    simp only [visitJoins_eq, bind_assoc, pure_bind]
  | .unnest arrays _ => by
    rw [visitRelation, relationSites, relationFields, visitExprs_eq itemizes]
  | .pivot _ _ => by
    rw [visitRelation, relationSites, visitAll_single, visit]
    rfl
  | .other _ => by
    rw [visitRelation, relationSites, visitAll_single, visit]
    rfl

theorem visitJoins_eq : ∀ (left : List Field) (js : List (Join Query)), c.visitJoins nested scope left js =
      c.visitAll (c.joinsSites steps scope left js) >>= fun _ => pure (left ++ c.joinsFields js)
  | left, [] => by
    rw [visitJoins, joinsSites, joinsFields, append_nil]
    rfl
  | left, .mk _ _ relation constraint :: rest => by
    rw [visitJoins, joinsSites, joinsFields, visitAll_append, visitAll_append, visitRelation_eq relation]
    cases constraint with
    | condition e =>
      simp only [visitExpr_eq itemizes, visitJoins_eq, JoinConstraint.exprs, flatMap_singleton, bind_assoc,
        pure_bind, append_assoc]
    | columns | natural | none =>
      have nothing : c.visitAll [] = pure ⟨⟩ := rfl
      simp only [visitJoins_eq, JoinConstraint.exprs, flatMap_nil, nothing, bind_assoc, pure_bind, append_assoc]

end

theorem visitSource_eq (source : List (FromItem Query)) : c.visitSource nested scope source =
      c.visitAll (c.sourceSites steps scope source) >>= fun _ => pure (c.sourceFields source) := by
  induction source with
  | nil => rfl
  | cons item rest ih =>
    rw [sourceSites] at ih ⊢
    simp only [visitSource, visitRelation_eq itemizes, visitJoins_eq itemizes, ih, flatMap_cons, itemSites,
      visitAll_append, sourceFields, itemFields, bind_assoc, pure_bind]

theorem visitItem_eq (source : Scope) (item : SelectItem Query) :
    visitItem nested source item = c.visitAll (selectSites steps source item) := by
  cases item with
  | wildcard | qualifiedWildcard =>
    rw [selectSites, visitAll_single]
    rfl
  | expr e | aliased e label =>
    rw [visitItem, visitExpr_eq itemizes]
    rfl

theorem visitFilter_eq (filter : Option (Expr Query)) (source : Scope) : visitFilter nested filter source =
      c.visitAll (filter.toList.flatMap fun e => exprSites steps source e ++ [(source, .filter e)]) := by
  cases filter with
  | none => rfl
  | some e =>
    rw [Option.toList_some, flatMap_singleton, visitAll_append, visitAll_single, visitFilter, visitExpr_eq itemizes]
    rfl

theorem visitSelect_eq (s : Select Query) :
    c.visitSelect nested s scope = c.visitAll (c.bodySites steps scope (.select s)) >>= fun _ =>
      pure ({ fields := c.sourceFields s.source } :: scope) := by
  have items : ∀ source, s.items.forM (visitItem nested source) =
      c.visitAll (s.items.flatMap (selectSites steps source)) := by
    intro source
    rw [visitAll_flatMap]
    exact congrArg s.items.forM (funext (visitItem_eq itemizes source))
  simp only [visitSelect, visitSource_eq itemizes, items, visitFilter_eq itemizes, visitExprs_eq itemizes, bodySites,
    clauseSites, visitAll_append, flatMap_append, bind_assoc, pure_bind]

theorem visitBody_eq : ∀ b : Body Query, c.visitBody nested scope b =
      c.visitAll (c.bodySites steps scope b) >>= fun _ => pure ({ fields := c.bodyFields inner b } :: scope)
  | .select s => visitSelect_eq itemizes s
  | .query q => itemizes q scope
  | .setOp _ left right => by
    simp only [visitBody, bodySites, bodyFields, discard_bind, visitBody_eq, visitAll_append, bind_assoc, pure_bind]
  | .values rows _ => by
    rw [visitBody, bodySites, bodyFields, visitExprs_eq itemizes]
  | .table _ => by
    rw [visitBody, bodySites, visitAll_single, visit]
    rfl
  | .write _ => by
    rw [visitBody, bodySites, visitAll_single, visit]
    rfl

theorem visitCtes_eq (recursive : Bool) :
    ∀ (earlier : List String) (ctes : List (Cte Query)), visitCtes nested recursive scope earlier ctes =
      c.visitAll (withSites steps recursive scope earlier ctes) >>= fun _ =>
        pure (earlier ++ ctes.map With.nameOf)
  | earlier, [] => by
    rw [visitCtes, withSites, map_nil, append_nil]
    rfl
  | earlier, cte :: rest => by
    rw [visitCtes, withSites]
    split
    · rfl
    · simp only [seen, nil_append, visitAll_append, itemizes.bind, visitCtes_eq, bind_assoc, map_cons,
        With.nameOf, append_assoc, singleton_append]

theorem visitWith_eq (q : Query) : visitWith nested q scope =
    c.visitAll (withSites steps q.recursive scope [] q.ctes) >>= fun _ => pure (within q scope) := by
  unfold visitWith within
  split
  · rename_i none
    rw [none]
    rfl
  · simp only [visitCtes_eq itemizes, bind_assoc, pure_bind]
    rfl

theorem visitQueryWith_eq (q : Query) :
    c.visitQueryWith nested q scope = c.visitAll (c.sitesWith steps inner q scope) >>=
      fun _ => pure ({ fields := c.bodyFields inner q.body } :: scope) := by
  simp only [visitQueryWith, visitWith_eq itemizes, visitBody_eq itemizes, visitExprs_eq itemizes, sitesWith,
    ownSites, visitAll_append, visitAll_single, bind_assoc, pure_bind]
  rfl

end Equations

theorem visitQuery_itemizes : ∀ n, c.Itemizes (c.visitQuery n) (c.sitesAt n) (c.fieldsAt n)
  | 0, _, _ => rfl
  | n + 1, q, _ => visitQueryWith_eq (visitQuery_itemizes n) q

/-- Whether a site can be visited. -/
def Passes : Site → Prop
  | (_, .table name) => ∃ table, c.session.tableName name = .ok table
  | (_, .call name args) => Rollup.isName name = true ∧ ∃ r, Rollup.resolve c.layer args = .ok r
  | (scope, .names e) => ∃ fields, scope.fieldsOf e = .ok fields
  | (scope, .output e _) => ∀ name, columnName? e = some name → ∃ found, scope.resolve name = .ok found
  | (scope, .filter e) => ∃ predicates, predicatesOf scope e = .ok predicates
  | (_, .refused _) => False
  | (_, .columns _) | (_, .finish) => True

/-- What an analysis has noted after a site that can be visited. -/
def noted (a : Analysis) : Site → Analysis
  | (scope, .table name) =>
    if c.isWithName name scope then a else
    match c.session.tableName name with
    | .ok table =>
      match c.kind? table with
      | some kind => a.addObject table kind
      | none => a.addPhysical table
    | .error _ => a
  | (_, .call _ args) =>
    match Rollup.resolve c.layer args with
    | .ok r => a.addRollup r
    | .error _ => a
  | (scope, .names e) => ((scope.fieldsOf e).toOption.getD []).foldl (fun a field => a.addRead field) a
  | (_, .columns fields) => fields.foldl (fun a field => a.addRead field) a
  | (scope, .output e label) =>
    match columnName? e with
    | some name =>
      match scope.resolve name with
      | .ok (some field) => a.addType label field.typeName
      | .ok none | .error _ => a
    | none => a
  | (scope, .filter e) =>
    ((predicatesOf scope e).toOption.getD []).foldl (fun a predicate => a.addPredicate predicate) a
  | (_, .refused _) => a
  | (scope, .finish) => a.addScope scope

section Runs

variable {c} {a a' : Analysis} {site : Site} {sites : List Site} {u : PUnit} {scope parent : Scope} {s : Select Query}

theorem forM_modify {α : Type} (note : α → Analysis → Analysis) (l : List α) (a : Analysis) :
    (l.forM fun x => modify (note x) : Analyzer PUnit) a = .ok (⟨⟩, l.foldl (fun a x => note x a) a) := by
  induction l generalizing a with
  | nil => rfl
  | cons x l ih => exact ih (note x a)

theorem visit_eq_ok : c.visit site a = .ok (u, a') ↔ c.Passes site ∧ a' = c.noted a site := by
  have done {p : Prop} {b : Analysis} (h : p) :
      (Except.ok (⟨⟩, b) : Except CompileError (PUnit × Analysis)) = .ok (u, a') ↔ p ∧ a' = b := by
    simp [h, eq_comm]
  have lifted {α : Type} (x : Except CompileError α) (f : α → Analyzer PUnit) :
      ((liftM x : Analyzer α) >>= f) a = x >>= fun y => f y a := run_lift_bind
  obtain ⟨scope, part⟩ := site
  cases part with
  | table name =>
    rw [visit, ← bind_pure (Functor.discard _), discard_bind, Passes, noted, visitTable]
    by_cases bound : c.isWithName name scope = true
    · rw [if_pos bound, if_pos bound, pure_bind]
      refine done ?_
      unfold isWithName at bound
      split at bound
      · exact ⟨_, rfl⟩
      · cases bound
    · rw [if_neg bound, if_neg bound]
      cases c.session.tableName name with
      | error => exact ⟨nofun, fun h => nomatch h.1⟩
      | ok table =>
        rw [bind_assoc, lifted, ok_bind]
        dsimp only
        cases c.kind? table with
        | some | none => exact done ⟨table, rfl⟩
  | call name args =>
    rw [visit, Passes, noted]
    cases named : Rollup.isName name with
    | false => exact ⟨nofun, fun h => nomatch h.1.1⟩
    | true =>
      cases Rollup.resolve c.layer args with
      | error => exact ⟨nofun, fun h => nomatch h.1.2⟩
      | ok r => exact done ⟨rfl, r, rfl⟩
  | names e =>
    rw [visit, Passes, noted, lifted]
    cases scope.fieldsOf e with
    | error => exact ⟨nofun, fun h => nomatch h.1⟩
    | ok fields =>
      rw [ok_bind, forM_modify]
      exact done ⟨fields, rfl⟩
  | columns fields =>
    rw [visit, forM_modify]
    exact done trivial
  | output e label =>
    rw [visit, Passes, noted, recordType]
    cases columnName? e with
    | none => exact done nofun
    | some name =>
      simp only [Option.some.injEq, forall_eq']
      cases scope.resolve name with
      | error => exact ⟨nofun, fun h => nomatch h.1⟩
      | ok found =>
        cases found with
        | none | some => exact done ⟨_, rfl⟩
  | filter e =>
    rw [visit, Passes, noted, lifted]
    cases predicatesOf scope e with
    | error => exact ⟨nofun, fun h => nomatch h.1⟩
    | ok predicates =>
      rw [ok_bind, forM_modify]
      exact done ⟨predicates, rfl⟩
  | refused e => exact ⟨nofun, fun h => h.1.elim⟩
  | finish => exact done trivial

theorem visitAll_eq_ok :
    c.visitAll sites a = .ok (u, a') ↔ (∀ site ∈ sites, c.Passes site) ∧ a' = sites.foldl c.noted a := by
  induction sites generalizing a with
  | nil => exact ⟨fun returned => by cases returned; exact ⟨forall_mem_nil _, rfl⟩, fun h => h.2 ▸ rfl⟩
  | cons site rest ih =>
    change (c.visit site a >>= fun r => c.visitAll rest r.2) = _ ↔ _
    rw [bind_eq_ok_iff, forall_mem_cons, foldl_cons]
    constructor
    · rintro ⟨⟨_, next⟩, first, others⟩
      obtain ⟨passes, rfl⟩ := visit_eq_ok.mp first
      obtain ⟨all, rfl⟩ := ih.mp others
      exact ⟨⟨passes, all⟩, rfl⟩
    · rintro ⟨⟨passes, all⟩, same⟩
      exact ⟨(⟨⟩, c.noted a site), visit_eq_ok.mpr ⟨passes, rfl⟩, ih.mpr ⟨all, same⟩⟩

/-- A query is visited if all its sites can be, and what is noted is noted site by site. -/
theorem visitQuery_eq_ok {n : Nat} {q : Query} {own : Scope} : c.visitQuery n q scope a = .ok (own, a') ↔
    (∀ site ∈ c.sitesAt n q scope, c.Passes site) ∧ own = { fields := c.fieldsAt n q } :: scope ∧
      a' = (c.sitesAt n q scope).foldl c.noted a := by
  rw [c.visitQuery_itemizes n q scope]
  change (c.visitAll _ a >>= fun r => .ok (_, r.2)) = _ ↔ _
  rw [bind_eq_ok_iff]
  constructor
  · rintro ⟨⟨_, _⟩, run, ⟨⟩⟩
    obtain ⟨all, rfl⟩ := visitAll_eq_ok.mp run
    exact ⟨all, rfl, rfl⟩
  · rintro ⟨all, rfl, rfl⟩
    exact ⟨(⟨⟩, _), visitAll_eq_ok.mpr ⟨all, rfl⟩, rfl⟩

/-- A FROM clause has a scope if all its sites can be visited, and the scope is known beforehand. -/
theorem sourceScope_eq_ok : c.sourceScope s parent = .ok scope ↔
    (∀ site ∈ c.sourceSites c.sites parent s.source, c.Passes site) ∧
      scope = { fields := c.sourceFields s.source } :: parent := by
  have itemizes : c.Itemizes (fun q => c.visitQuery q.height q) c.sites fun q => c.fieldsAt q.height q :=
    fun q => c.visitQuery_itemizes q.height q
  unfold sourceScope
  rw [visitSource_eq itemizes]
  change ((c.visitAll _ {} >>= fun r => .ok (c.sourceFields s.source, r.2)) >>= fun r => .ok ({ fields := r.1 } :: parent)) =
    _ ↔ _
  simp only [bind_eq_ok_iff]
  constructor
  · rintro ⟨_, ⟨⟨_, _⟩, run, ⟨⟩⟩, ⟨⟩⟩
    exact ⟨(visitAll_eq_ok.mp run).1, rfl⟩
  · rintro ⟨all, rfl⟩
    exact ⟨_, ⟨(⟨⟩, _), visitAll_eq_ok.mpr ⟨all, rfl⟩, rfl⟩, rfl⟩

theorem sourceScope_eq (returned : c.sourceScope s parent = .ok scope) :
    scope = { fields := c.sourceFields s.source } :: parent :=
  (sourceScope_eq_ok.mp returned).2

end Runs

end Context

end SemanticLayer
