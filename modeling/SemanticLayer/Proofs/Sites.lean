import SemanticLayer.Proofs.Visits

/-! # What the sites of a query show

If all sites of a query can be visited, the query is accepted, and its sites are those of what its FROM clauses name
and of the queries nested in it: `Context.Reports` says this of each part of a query.
-/

namespace SemanticLayer

open Sql List

def Scope.withNames (s : Scope) : List String := s.flatMap Frame.named

@[simp] theorem Scope.withNames_cons (f : Frame) (s : Scope) : Scope.withNames (f :: s) = f.named ++ s.withNames := rfl

namespace Sql

section Calls

variable (nested : Query → List (List (Expr Query)))

mutual

/-- The arguments of the table functions in a relation, given those in nested queries. -/
def Relation.calls : Relation Query → List (List (Expr Query))
  | .table _ (some args) _ _ _ => [args]
  | .derived _ query _ => nested query
  | .nested first joins _ => first.calls ++ Join.callsAll joins
  | .unnest arrays _ => (arrays.flatMap Expr.queries).flatMap nested
  | .pivot source _ => source.calls
  | .table _ none _ _ _ | .other _ => []

def Join.callsAll : List (Join Query) → List (List (Expr Query))
  | [] => []
  | .mk _ _ relation constraint :: rest =>
    relation.calls ++ constraint.queries.flatMap nested ++ Join.callsAll rest

end

def FromItem.calls (item : FromItem Query) : List (List (Expr Query)) :=
  item.first.calls nested ++ Join.callsAll nested item.joins

def Body.calls : Body Query → List (List (Expr Query))
  | .select s => s.source.flatMap (FromItem.calls nested) ++ (s.clauseQueries .visited).flatMap nested
  | .query q => nested q
  | .setOp _ left right => left.calls ++ right.calls
  | .values rows _ => (rows.flatten.flatMap Expr.queries).flatMap nested
  | .table _ | .write _ => []

end Calls

/-- The arguments of the table functions in a query nested at most `n` deep. -/
def Query.callsAt : Nat → Query → List (List (Expr Query))
  | 0, _ => []
  | n + 1, q =>
    q.ctes.flatMap (fun cte => callsAt n cte.query) ++ q.body.calls (callsAt n) ++
      (orderQueries q.orderBy).flatMap (callsAt n)

/-- The arguments of the table functions in the clauses of a query that an analysis visits. WITH entries come first
    and ORDER BY last. -/
def Query.calls (q : Query) : List (List (Expr Query)) := q.callsAt q.height

end Sql

namespace Part

/-- What a part names. -/
def mention? : Part → Option Mention
  | .table name => some (.table name)
  | .call name args => some (.call name (args.map Expr.name?))
  | .names _ | .columns _ | .output _ _ | .filter _ | .refused _ | .finish => none

def calls : Part → List (List (Expr Query))
  | .call _ args => [args]
  | .table _ | .names _ | .columns _ | .output _ _ | .filter _ | .refused _ | .finish => []

end Part

namespace Context

section Queries

theorem queries_of_skipsKey {outputs : List String} {source : Scope} {e : Expr Query}
    (skipped : skipsKey outputs source e = true) : e.queries = [] := by
  unfold skipsKey at skipped
  split at skipped
  · rfl
  · rfl
  · cases skipped

theorem groupKeys_queries (s : Select Query) (source : Scope) :
    (groupKeys s source).flatMap Expr.queries = s.groupBy.queries := by
  unfold groupKeys
  cases s.groupBy with
  | all => rfl
  | exprs items modifiers =>
    rw [GroupBy.queries]
    induction items with
    | nil => rfl
    | cons e rest ih =>
      cases skipped : skipsKey (outputNames s.items) source e with
      | false => simp [skipped, ih]
      | true => simp [skipped, ih, queries_of_skipsKey skipped]

theorem queriesOf_eq (e : Option (Expr Query)) : queriesOf e = e.toList.flatMap Expr.queries := by
  cases e <;> simp [queriesOf]

theorem orderKeys_queries (q : Query) : (orderKeys q).flatMap Expr.queries = orderQueries q.orderBy := by
  unfold orderKeys orderQueries
  induction q.orderBy with
  | nil => rfl
  | cons item rest ih =>
    cases skipped : isOutputName (orderNames q.body) item.expr with
    | false => simp [skipped, ih]
    | true =>
      have none : item.expr.queries = [] := by
        unfold isOutputName at skipped
        split at skipped
        · rename_i named
          rw [named, Expr.queries]
        · cases skipped
      simp [skipped, ih, none]

end Queries

variable (c : Context)

mutual

/-- Whether a relation is accepted, apart from the queries in it. -/
def AcceptsRelation : Relation Query → Prop
  | .table name none _ _ _ => ∃ table, c.session.tableName name = .ok table
  | .table name (some args) _ _ _ => Rollup.isName name = true ∧ ∃ r, Rollup.resolve c.layer args = .ok r
  | .nested first joins _ => AcceptsRelation first ∧ AcceptsJoins joins
  | .derived _ _ _ | .unnest _ _ => True
  | .pivot _ _ | .other _ => False

def AcceptsJoins : List (Join Query) → Prop
  | [] => True
  | .mk _ _ relation _ :: rest => AcceptsRelation relation ∧ AcceptsJoins rest

end

def AcceptsSource (source : List (FromItem Query)) : Prop :=
  ∀ item ∈ source, c.AcceptsRelation item.first ∧ c.AcceptsJoins item.joins

def AcceptsBody : Body Query → Prop
  | .select s => c.AcceptsSource s.source
  | .setOp _ left right => AcceptsBody left ∧ AcceptsBody right
  | .query _ | .values _ _ => True
  | .table _ | .write _ => False

def Accepts (q : Query) : Prop := c.AcceptsBody q.body ∧ (With.names q).Nodup

/-- All of some sites can be visited. -/
abbrev PassAll (sites : List Site) : Prop := ∀ site ∈ sites, c.Passes site

variable (steps : Query → Scope → List Site) (calls : Query → List (List (Expr Query)))

/-- Some sites are those of what is mentioned and of nested queries, where some WITH names are visible, and contain
    some calls of table functions. -/
structure Reports (bound : List String) (sites : List Site) (mentions : List Mention) (inner : List Query)
    (called : List (List (Expr Query))) : Prop where
  mention : ∀ m ∈ mentions, ∃ site ∈ sites, site.1.withNames = bound ∧ site.2.mention? = some m
  nested : ∀ x ∈ inner, ∃ scope : Scope, scope.withNames = bound ∧ steps x scope ⊆ sites
  only : ∀ site ∈ sites, ∀ m, site.2.mention? = some m → site.1.withNames = bound ∧ m ∈ mentions ∨
    ∃ x ∈ inner, ∃ scope : Scope, scope.withNames = bound ∧ site ∈ steps x scope ∧ steps x scope ⊆ sites
  calls : sites.flatMap (·.2.calls) = called

namespace Reports

variable {steps} {bound : List String} {sites sites' : List Site} {mentions mentions' : List Mention}
  {inner inner' : List Query} {called called' : List (List (Expr Query))}

theorem nil : Reports steps bound [] [] [] [] :=
  ⟨forall_mem_nil _, forall_mem_nil _, forall_mem_nil _, rfl⟩

theorem append (first : Reports steps bound sites mentions inner called)
    (second : Reports steps bound sites' mentions' inner' called') :
    Reports steps bound (sites ++ sites') (mentions ++ mentions') (inner ++ inner') (called ++ called') where
  mention := by
    refine forall_mem_append.mpr ⟨fun m member => ?_, fun m member => ?_⟩
    · obtain ⟨site, listed, found⟩ := first.mention m member
      exact ⟨site, mem_append_left _ listed, found⟩
    · obtain ⟨site, listed, found⟩ := second.mention m member
      exact ⟨site, mem_append_right _ listed, found⟩
  nested := by
    refine forall_mem_append.mpr ⟨fun x member => ?_, fun x member => ?_⟩
    · obtain ⟨scope, names, visited⟩ := first.nested x member
      exact ⟨scope, names, subset_append_of_subset_left _ visited⟩
    · obtain ⟨scope, names, visited⟩ := second.nested x member
      exact ⟨scope, names, subset_append_of_subset_right _ visited⟩
  only := by
    refine forall_mem_append.mpr ⟨fun site member m found => ?_, fun site member m found => ?_⟩
    · refine (first.only site member m found).imp (And.imp_right (mem_append_left _)) ?_
      rintro ⟨x, listed, scope, names, inside, visited⟩
      exact ⟨x, mem_append_left _ listed, scope, names, inside, subset_append_of_subset_left _ visited⟩
    · refine (second.only site member m found).imp (And.imp_right (mem_append_right _)) ?_
      rintro ⟨x, listed, scope, names, inside, visited⟩
      exact ⟨x, mem_append_right _ listed, scope, names, inside, subset_append_of_subset_right _ visited⟩
  calls := by rw [flatMap_append, first.calls, second.calls]

theorem single {scope : Scope} {part : Part} {m : Mention} (found : part.mention? = some m) :
    Reports steps scope.withNames [(scope, part)] [m] [] part.calls := by
  refine ⟨by simpa using found, forall_mem_nil _, ?_, by simp⟩
  intro site member m' found'
  obtain rfl := mem_singleton.mp member
  obtain rfl := Option.some.inj (found.symm.trans found')
  exact .inl ⟨rfl, mem_singleton_self m⟩

theorem quiet (site : Site) (nothing : site.2.mention? = none) (callless : site.2.calls = []) :
    Reports steps bound [site] [] [] [] := by
  refine ⟨forall_mem_nil _, forall_mem_nil _, ?_, by simp [callless]⟩
  simp [nothing]

theorem flatMap {α : Type} {l : List α} {f : α → List Site} {g : α → List Mention} {h : α → List Query}
    {k : α → List (List (Expr Query))} (each : ∀ a ∈ l, Reports steps bound (f a) (g a) (h a) (k a)) :
    Reports steps bound (l.flatMap f) (l.flatMap g) (l.flatMap h) (l.flatMap k) := by
  induction l with
  | nil => exact nil
  | cons a l ih =>
    obtain ⟨first, rest⟩ := forall_mem_cons.mp each
    exact first.append (ih rest)

theorem flatMap_quiet {α : Type} {l : List α} {f : α → List Site} {h : α → List Query}
    {k : α → List (List (Expr Query))} (each : ∀ a ∈ l, Reports steps bound (f a) [] (h a) (k a)) :
    Reports steps bound (l.flatMap f) [] (l.flatMap h) (l.flatMap k) := by
  have all := flatMap each
  rwa [flatMap_eq_nil_iff.mpr fun _ _ => rfl] at all

end Reports

section Reporting

variable {c steps calls} {scope : Scope} (settled : ∀ x s, c.PassAll (steps x s) →
  (steps x s).flatMap (·.2.calls) = calls x)

include settled

theorem steps_report (x : Query) (passes : c.PassAll (steps x scope)) :
    Reports steps scope.withNames (steps x scope) [] [x] (calls x) := by
  refine ⟨forall_mem_nil _, ?_, fun site member _ _ => ?_, settled x scope passes⟩
  · exact forall_mem_singleton.mpr ⟨scope, rfl, Subset.refl _⟩
  · exact .inr ⟨x, mem_singleton_self x, scope, rfl, member, Subset.refl _⟩

theorem exprSites_report (e : Expr Query) (passes : c.PassAll (exprSites steps scope e)) :
    Reports steps scope.withNames (exprSites steps scope e) [] e.queries (e.queries.flatMap calls) := by
  have queries := forall_mem_flatMap.mp (forall_mem_cons.mp passes).2
  have nested := Reports.flatMap_quiet fun x member => steps_report settled x (queries x member)
  rw [flatMap_singleton'] at nested
  exact Reports.append (.quiet _ rfl rfl) nested

theorem exprsSites_report {exprs : List (Expr Query)} (passes : c.PassAll (exprs.flatMap (exprSites steps scope))) :
    Reports steps scope.withNames (exprs.flatMap (exprSites steps scope)) [] (exprs.flatMap Expr.queries)
      ((exprs.flatMap Expr.queries).flatMap calls) := by
  rw [PassAll, forall_mem_flatMap] at passes
  have each := Reports.flatMap_quiet fun e member => exprSites_report settled e (passes e member)
  rwa [← flatMap_assoc] at each

mutual

theorem relationSites_report : ∀ r : Relation Query, c.PassAll (c.relationSites steps scope r) →
    c.AcceptsRelation r ∧ Reports steps scope.withNames (c.relationSites steps scope r) r.mentions (r.inner .visited)
      (r.calls calls)
  | .table name (some args) _ _ _, passes => by
    rw [relationSites] at passes ⊢
    rw [AcceptsRelation]
    exact ⟨passes _ (mem_singleton_self _), .single rfl⟩
  | .table name none _ _ _, passes => by
    rw [relationSites] at passes ⊢
    rw [AcceptsRelation]
    exact ⟨passes _ (mem_singleton_self _), .single rfl⟩
  | .derived _ query _, passes => by
    rw [relationSites] at passes ⊢
    rw [AcceptsRelation]
    exact ⟨trivial, steps_report settled query passes⟩
  | .nested first joins _, passes => by
    rw [relationSites] at passes ⊢
    obtain ⟨inFirst, inJoins⟩ := forall_mem_append.mp passes
    obtain ⟨accepted, head⟩ := relationSites_report first inFirst
    obtain ⟨acceptedJoins, rest⟩ := joinsSites_report _ joins inJoins
    rw [AcceptsRelation]
    exact ⟨⟨accepted, acceptedJoins⟩, head.append rest⟩
  | .unnest arrays _, passes => by
    rw [relationSites] at passes ⊢
    rw [AcceptsRelation, Relation.inner, Expr.queriesAll_eq_flatMap]
    exact ⟨trivial, exprsSites_report settled passes⟩
  | .pivot _ _, passes | .other _, passes => by
    rw [relationSites] at passes
    exact (passes _ (mem_singleton_self _)).elim

theorem joinsSites_report : ∀ (left : List Field) (js : List (Join Query)),
    c.PassAll (c.joinsSites steps scope left js) → c.AcceptsJoins js ∧
      Reports steps scope.withNames (c.joinsSites steps scope left js) (Join.mentionsAll js)
        (Join.innerAll .visited js) (Join.callsAll calls js)
  | left, [], _ => by
    rw [joinsSites, AcceptsJoins]
    exact ⟨trivial, .nil⟩
  | left, .mk _ _ relation constraint :: rest, passes => by
    rw [joinsSites] at passes ⊢
    obtain ⟨others, inRest⟩ := forall_mem_append.mp passes
    obtain ⟨inRelation, compared⟩ := forall_mem_append.mp others
    obtain ⟨accepted, head⟩ := relationSites_report relation inRelation
    obtain ⟨acceptedJoins, tail⟩ := joinsSites_report _ rest inRest
    have condition := exprsSites_report settled compared
    have queries : constraint.exprs.flatMap Expr.queries = constraint.queries := by
      cases constraint <;> simp [JoinConstraint.exprs, JoinConstraint.queries]
    rw [queries] at condition
    rw [AcceptsJoins]
    refine ⟨⟨accepted, acceptedJoins⟩, ?_⟩
    simpa [Join.mentionsAll, Join.innerAll, Join.callsAll, Reach.aside] using (head.append condition).append tail

end

theorem sourceSites_report (source : List (FromItem Query)) (passes : c.PassAll (c.sourceSites steps scope source)) :
    c.AcceptsSource source ∧ Reports steps scope.withNames (c.sourceSites steps scope source)
      (source.flatMap FromItem.mentions) (source.flatMap (FromItem.inner .visited))
      (source.flatMap (FromItem.calls calls)) := by
  rw [PassAll, sourceSites, forall_mem_flatMap] at passes
  have item : ∀ item ∈ source, (c.AcceptsRelation item.first ∧ c.AcceptsJoins item.joins) ∧
      Reports steps scope.withNames (c.itemSites steps scope item) item.mentions (item.inner .visited)
        (item.calls calls) := by
    intro item member
    obtain ⟨inFirst, inJoins⟩ := forall_mem_append.mp (passes item member)
    obtain ⟨accepted, head⟩ := relationSites_report settled item.first inFirst
    obtain ⟨acceptedJoins, rest⟩ := joinsSites_report settled _ item.joins inJoins
    exact ⟨⟨accepted, acceptedJoins⟩, head.append rest⟩
  exact ⟨fun i member => (item i member).1, .flatMap fun i member => (item i member).2⟩

theorem clauseSites_report (s : Select Query) (passes : c.PassAll (clauseSites steps s scope)) :
    Reports steps scope.withNames (clauseSites steps s scope) [] (s.clauseQueries .visited)
      ((s.clauseQueries .visited).flatMap calls) := by
  simp only [PassAll, clauseSites, forall_mem_append, forall_mem_flatMap (f := selectSites steps scope),
    forall_mem_flatMap (f := fun e => exprSites steps scope e ++ [(scope, .filter e)])] at passes
  obtain ⟨⟨items, filter⟩, keys⟩ := passes
  have listed : ∀ item ∈ s.items, Reports steps scope.withNames (selectSites steps scope item) [] (item.inner .visited)
      ((item.inner .visited).flatMap calls) := by
    intro item member
    have passes := items item member
    cases item with
    | wildcard | qualifiedWildcard => exact .quiet _ rfl rfl
    | expr e | aliased e label =>
      exact Reports.append (.quiet _ rfl rfl) (exprSites_report settled e (forall_mem_cons.mp passes).2)
  have filtered := Reports.flatMap_quiet fun e member =>
    (exprSites_report settled e (filter e member).1).append (.quiet (scope, .filter e) rfl rfl)
  have all := ((Reports.flatMap_quiet listed).append filtered).append (exprsSites_report settled keys)
  simpa only [clauseSites, flatMap_append, groupKeys_queries, Select.clauseQueries, queriesOf_eq, append_nil,
    append_assoc, flatMap_assoc] using all

theorem bodySites_report : ∀ b : Body Query, c.PassAll (c.bodySites steps scope b) → c.AcceptsBody b ∧
    Reports steps scope.withNames (c.bodySites steps scope b) b.mentions (b.inner .visited) (b.calls calls)
  | .select s, passes => by
    obtain ⟨inSource, inClauses⟩ := forall_mem_append.mp passes
    obtain ⟨accepted, source⟩ := sourceSites_report settled s.source inSource
    have clauses := clauseSites_report settled s inClauses
    have all := source.append clauses
    rw [append_nil] at all
    rw [Body.inner, Select.inner, Reach.aside, append_nil]
    exact ⟨accepted, all⟩
  | .query q, passes => ⟨trivial, steps_report settled q passes⟩
  | .setOp _ left right, passes => by
    obtain ⟨inLeft, inRight⟩ := forall_mem_append.mp passes
    obtain ⟨first, head⟩ := bodySites_report left inLeft
    obtain ⟨second, rest⟩ := bodySites_report right inRight
    exact ⟨⟨first, second⟩, head.append rest⟩
  | .values rows _, passes => by
    have each := exprsSites_report settled passes
    rw [Body.inner, ← flatMap_assoc, flatMap_id']
    exact ⟨trivial, each⟩
  | .table _, passes | .write _, passes => (passes _ (mem_singleton_self _)).elim

omit settled in
theorem withSites_append (recursive : Bool) : ∀ (earlier : List String) (front back : List (Cte Query)),
    withSites steps recursive scope earlier (front ++ back) = withSites steps recursive scope earlier front ++
      withSites steps recursive scope (earlier ++ front.map With.nameOf) back
  | earlier, [], back => by simp [withSites]
  | earlier, cte :: front, back => by
    have names : earlier ++ (cte :: front).map With.nameOf = earlier ++ [cte.name.value] ++ front.map With.nameOf :=
      append_cons _ _ _
    rw [cons_append, withSites, withSites, withSites_append recursive _ front back, names]
    simp only [append_assoc]

theorem withSites_calls (recursive : Bool) : ∀ (earlier : List String) (ctes : List (Cte Query)),
    c.PassAll (withSites steps recursive scope earlier ctes) →
      (withSites steps recursive scope earlier ctes).flatMap (·.2.calls) = ctes.flatMap fun cte => calls cte.query
  | earlier, [], _ => rfl
  | earlier, cte :: rest, passes => by
    rw [withSites] at passes ⊢
    obtain ⟨here, later⟩ := forall_mem_append.mp passes
    obtain ⟨fresh, entry⟩ := forall_mem_append.mp here
    rw [flatMap_append, flatMap_append, settled _ _ entry, withSites_calls recursive _ rest later]
    split
    · rfl
    · rfl

omit settled in
theorem nodup_of_withSites (recursive : Bool) : ∀ (earlier : List String) (ctes : List (Cte Query)),
    c.PassAll (withSites steps recursive scope earlier ctes) → earlier.Nodup → (earlier ++ ctes.map With.nameOf).Nodup
  | earlier, [], _, distinct => by simpa using distinct
  | earlier, cte :: rest, passes, distinct => by
    rw [withSites] at passes
    obtain ⟨here, later⟩ := forall_mem_append.mp passes
    obtain ⟨fresh, _⟩ := forall_mem_append.mp here
    split at fresh
    · exact (fresh _ (mem_singleton_self _)).elim
    · rename_i new
      rw [map_cons, append_cons]
      refine nodup_of_withSites recursive _ rest later (nodup_append.mpr ⟨distinct, by simp, ?_⟩)
      rintro name member _ single rfl
      rw [mem_singleton.mp single] at member
      exact new (contains_iff_mem.mpr member)

omit settled in
theorem entry_of_withSites (recursive : Bool) {site : Site} {m : Mention} (found : site.2.mention? = some m) :
    ∀ (earlier : List String) (ctes : List (Cte Query)), site ∈ withSites steps recursive scope earlier ctes →
      ∃ front cte back, ctes = front ++ cte :: back ∧
        site ∈ steps cte.query ({ named := seen recursive (earlier ++ front.map With.nameOf) cte } :: scope)
  | earlier, [], member => absurd member not_mem_nil
  | earlier, cte :: rest, member => by
    rw [withSites] at member
    rcases mem_append.mp member with here | later
    · rcases mem_append.mp here with refused | entry
      · split at refused
        · rw [mem_singleton.mp refused] at found
          cases found
        · cases refused
      · exact ⟨[], cte, rest, rfl, by rwa [map_nil, append_nil]⟩
    · obtain ⟨front, cte', back, rfl, inside⟩ := entry_of_withSites recursive found _ rest later
      exact ⟨cte :: front, cte', back, rfl, by rwa [map_cons, append_cons]⟩

omit settled in
theorem entry_subset_withSites (recursive : Bool) (earlier : List String) (front : List (Cte Query)) (cte : Cte Query)
    (back : List (Cte Query)) :
    steps cte.query ({ named := seen recursive (earlier ++ front.map With.nameOf) cte } :: scope) ⊆
      withSites steps recursive scope earlier (front ++ cte :: back) := by
  rw [withSites_append, withSites]
  intro site member
  exact mem_append_right _ (mem_append_left _ (mem_append_right _ member))

omit settled in
theorem withNames_within (q : Query) (scope : Scope) : (within q scope).withNames = With.names q ++ scope.withNames := by
  unfold within With.names
  split
  · rename_i none
    rw [none]
    rfl
  · rfl

/-- A query is accepted, and its sites apart from those of its WITH clause are those of its body and its ORDER BY. -/
theorem ownSites_report {inner : Query → List Field} (q : Query)
    (passes : c.PassAll (c.sitesWith steps inner q scope)) : c.Accepts q ∧
      Reports steps (With.names q ++ scope.withNames) (c.ownSites steps inner q scope) q.body.mentions
        (q.inner .visited) (q.body.calls calls ++ (orderQueries q.orderBy).flatMap calls) := by
  simp only [PassAll, sitesWith, ownSites, forall_mem_append] at passes
  obtain ⟨entries, ⟨inBody, inOrder⟩, _⟩ := passes
  obtain ⟨accepted, body⟩ := bodySites_report settled q.body inBody
  have order := exprsSites_report settled inOrder
  rw [orderKeys_queries] at order
  have all := (body.append order).append (.quiet ({ fields := c.bodyFields inner q.body } :: scope, .finish) rfl rfl)
  rw [withNames_within] at all
  refine ⟨⟨accepted, nodup_of_withSites _ [] _ entries nodup_nil⟩, ?_⟩
  simpa only [ownSites, Query.inner, Reach.aside, append_nil] using all

end Reporting

section Queries

variable {c} {q : Query} {scope : Scope}

theorem sitesAt_calls : ∀ (n : Nat) (q : Query) (scope : Scope), c.PassAll (c.sitesAt n q scope) →
    (c.sitesAt n q scope).flatMap (·.2.calls) = q.callsAt n
  | 0, _, _, _ => rfl
  | n + 1, q, scope, passes => by
    rw [sitesAt] at passes ⊢
    have own := (ownSites_report (sitesAt_calls n) q passes).2
    rw [sitesWith] at passes ⊢
    rw [flatMap_append, withSites_calls (sitesAt_calls n) _ _ _ (forall_mem_append.mp passes).1, own.calls,
      Query.callsAt, append_assoc]

theorem accepts_of_sitesAt (passes : c.PassAll (c.sitesAt (n + 1) q scope)) : c.Accepts q :=
  (ownSites_report (sitesAt_calls n) q passes).1

theorem sitesAt_of_inner {x : Query} (passes : c.PassAll (c.sitesAt (n + 1) q scope)) (member : x ∈ q.inner .visited) :
    ∃ s : Scope, s.withNames = With.names q ++ scope.withNames ∧ c.sitesAt n x s ⊆ c.sitesAt (n + 1) q scope := by
  obtain ⟨s, names, inside⟩ := (ownSites_report (sitesAt_calls n) q passes).2.nested x member
  exact ⟨s, names, subset_append_of_subset_right _ inside⟩

theorem sitesAt_of_entry (n : Nat) (scope : Scope) {front back : List (Cte Query)} {cte : Cte Query} (split : q.ctes = front ++ cte :: back) :
    ∃ s : Scope, s.withNames = q.visibleTo front cte ++ scope.withNames ∧
      c.sitesAt n cte.query s ⊆ c.sitesAt (n + 1) q scope := by
  refine ⟨{ named := q.visibleTo front cte } :: scope, rfl, ?_⟩
  rw [sitesAt, sitesWith, split]
  exact subset_append_of_subset_left _ (entry_subset_withSites q.recursive [] front cte back)

theorem site_of_reads {outer bound : List String} {m : Mention} (reads : q.Reads .visited outer bound m) :
    ∀ (n : Nat) (scope : Scope), q.height ≤ n → scope.withNames = outer → c.PassAll (c.sitesAt n q scope) →
      ∃ site ∈ c.sitesAt n q scope, site.1.withNames = bound ∧ site.2.mention? = some m := by
  induction reads with
  | @here outer q m member =>
    rintro (_ | n) scope low rfl passes
    · exact absurd low (Nat.not_le.mpr q.height_pos)
    · obtain ⟨site, listed, found⟩ := (ownSites_report (sitesAt_calls n) q passes).2.mention m member
      exact ⟨site, mem_append_right _ listed, found⟩
  | @nested outer bound q x m member _ ih =>
    rintro (_ | n) scope low rfl passes
    · exact absurd low (Nat.not_le.mpr q.height_pos)
    · have lower := Query.height_lt_inner member
      obtain ⟨s, names, inside⟩ := sitesAt_of_inner passes member
      obtain ⟨site, listed, found⟩ := ih n s (by omega) names fun site member => passes site (inside member)
      exact ⟨site, inside listed, found⟩
  | @entry outer bound q m front back cte split _ ih =>
    rintro (_ | n) scope low rfl passes
    · exact absurd low (Nat.not_le.mpr q.height_pos)
    · have lower : cte.query.height < q.height := Query.height_lt_ctes (by simp [split])
      obtain ⟨s, names, inside⟩ := sitesAt_of_entry (c := c) n scope split
      obtain ⟨site, listed, found⟩ := ih n s (by omega) names fun site member => passes site (inside member)
      exact ⟨site, inside listed, found⟩

/-- The sites that name something are those of what the query reads. -/
theorem reads_of_site : ∀ (n : Nat) (q : Query) (scope : Scope), c.PassAll (c.sitesAt n q scope) →
    ∀ site ∈ c.sitesAt n q scope, ∀ m, site.2.mention? = some m → q.Reads .visited scope.withNames site.1.withNames m
  | 0, _, _, _, _, member, _, _ => absurd member not_mem_nil
  | n + 1, q, scope, passes, site, member, m, found => by
    obtain ⟨inWith, inOwn⟩ := forall_mem_append.mp passes
    rcases mem_append.mp member with entry | own
    · obtain ⟨front, cte, back, split, inside⟩ := entry_of_withSites q.recursive found [] q.ctes entry
      refine .entry split (reads_of_site n cte.query _ ?_ site inside m found)
      intro other listed
      refine inWith other ?_
      rw [split]
      exact entry_subset_withSites q.recursive [] front cte back listed
    · have reports := (ownSites_report (sitesAt_calls n) q passes).2
      rcases reports.only site own m found with ⟨names, mentioned⟩ | ⟨x, nested, s, names, inside, visited⟩
      · rw [names]
        exact .here mentioned
      · have below := reads_of_site n x s (fun other listed => inOwn other (visited listed)) site inside m found
        rw [names] at below
        exact .nested nested below

end Queries

end Context

end SemanticLayer
