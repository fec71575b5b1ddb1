import SemanticLayer.Proofs.Acceptance
import SemanticLayer.Proofs.Selects

/-! # Analyses that go through

A query whose levels are accepted is analyzed if its names are clear: none of them is ambiguous where it stands. Where
no relation has fields, every name is.
-/

namespace SemanticLayer

open Sql List

namespace Scope

variable {s : Scope}

/-- No name in an expression means a field here. -/
def Blank (s : Scope) : Prop := ∀ frame ∈ s, frame.fields = []

instance (s : Scope) : Decidable s.Blank := inferInstanceAs (Decidable (∀ frame ∈ s, frame.fields = []))

theorem Blank.nil : Blank [] := forall_mem_nil _

theorem Blank.cons (blank : s.Blank) {frame : Frame} (empty : frame.fields = []) : Blank (frame :: s) :=
  forall_mem_cons.mpr ⟨empty, blank⟩

theorem Blank.resolve (blank : s.Blank) (name : DottedName) : s.resolve name = .ok none := by
  induction s with
  | nil => rfl
  | cons frame s ih =>
    obtain ⟨empty, blank⟩ := forall_mem_cons.mp blank
    rw [Scope.resolve, empty]
    exact ih blank

theorem Blank.firstHead (blank : s.Blank) (heads : List (DottedName × DottedName)) : s.firstHead heads = .ok none := by
  induction heads with
  | nil => rfl
  | cons head heads ih =>
    rw [Scope.firstHead, blank.resolve]
    exact ih

theorem Blank.reference (blank : s.Blank) (name : DottedName) : s.reference name = .ok .nothing := by
  rw [Scope.reference, blank.resolve, blank.firstHead]
  rfl

theorem Blank.clear (blank : s.Blank) (name : DottedName) : s.Clear name := ⟨_, blank.reference name⟩

end Scope

namespace Sql

def Body.rowExprs : Body Query → List (Expr Query)
  | .values rows _ => rows.flatten
  | .setOp _ left right => left.rowExprs ++ right.rowExprs
  | .select _ | .query _ | .table _ | .write _ => []

end Sql

namespace Context

variable {source : List (FromItem Query)} {e : Expr Query}

section Sources

variable (c : Context)

mutual

/-- The expressions in a relation, with the fields that each of them sees. -/
def relationExprs : Relation Query → List (List Field × Expr Query)
  | .nested first joins _ => relationExprs first ++ joinsExprs (c.relationFields first) joins
  | .unnest arrays _ => arrays.map ([], ·)
  | .table _ _ _ _ _ | .derived _ _ _ | .pivot _ _ | .other _ => []

def joinsExprs (left : List Field) : List (Join Query) → List (List Field × Expr Query)
  | [] => []
  | .mk _ _ relation constraint :: rest =>
    let fields := left ++ c.relationFields relation
    relationExprs relation ++ constraint.exprs.map (fields, ·) ++ joinsExprs fields rest

end

def itemExprs (item : FromItem Query) : List (List Field × Expr Query) :=
  c.relationExprs item.first ++ c.joinsExprs (c.relationFields item.first) item.joins

def sourceExprs (source : List (FromItem Query)) : List (List Field × Expr Query) := source.flatMap c.itemExprs

variable {c} {p : List Field × Expr Query} {x : Query}

mutual

theorem mem_inner_of_relationExprs : ∀ {r : Relation Query}, p ∈ c.relationExprs r → x ∈ p.2.queries →
    x ∈ r.inner .visited
  | .nested first joins _, member, found => by
    rw [relationExprs, mem_append] at member
    rw [Relation.inner, mem_append]
    exact member.imp (mem_inner_of_relationExprs · found) (mem_inner_of_joinsExprs · found)
  | .unnest arrays _, member, found => by
    rw [relationExprs] at member
    obtain ⟨e, listed, rfl⟩ := mem_map.mp member
    rw [Relation.inner, Expr.queriesAll_eq_flatMap]
    exact mem_flatMap.mpr ⟨e, listed, found⟩
  | .table _ _ _ _ _, member, _ | .derived _ _ _, member, _ | .pivot _ _, member, _ | .other _, member, _ => by
    rw [relationExprs] at member
    cases member

theorem mem_inner_of_joinsExprs : ∀ {left : List Field} {js : List (Join Query)}, p ∈ c.joinsExprs left js →
    x ∈ p.2.queries → x ∈ Join.innerAll .visited js
  | left, [], member, _ => by
    rw [joinsExprs] at member
    cases member
  | left, .mk _ _ relation constraint :: rest, member, found => by
    rw [joinsExprs, mem_append, mem_append] at member
    rw [Join.innerAll, mem_append, mem_append, mem_append]
    rcases member with (inRelation | compared) | later
    · exact .inl (.inl (.inl (mem_inner_of_relationExprs inRelation found)))
    · obtain ⟨e, listed, rfl⟩ := mem_map.mp compared
      cases constraint with
      | condition =>
        cases mem_singleton.mp listed
        exact .inl (.inr found)
      | columns | natural | none => cases listed
    · exact .inr (mem_inner_of_joinsExprs later found)

end

theorem mem_inner_of_sourceExprs (member : p ∈ c.sourceExprs source)
    (found : x ∈ p.2.queries) : x ∈ source.flatMap (FromItem.inner .visited) := by
  obtain ⟨item, listed, member⟩ := mem_flatMap.mp member
  refine mem_flatMap.mpr ⟨item, listed, mem_append.mpr ?_⟩
  exact (mem_append.mp member).imp (mem_inner_of_relationExprs · found) (mem_inner_of_joinsExprs · found)

end Sources

section Reading

variable {c : Context} {steps : Query → Scope → List Site} {scope : Scope}

/-- An expression goes through: its names are clear, and the queries in it go through. -/
structure Readable (c : Context) (steps : Query → Scope → List Site) (scope : Scope) (e : Expr Query) : Prop where
  names : ∀ name ∈ e.names, scope.Clear name.values
  queries : ∀ x ∈ e.queries, c.PassAll (steps x scope)

theorem Readable.pass (readable : c.Readable steps scope e) : c.PassAll (exprSites steps scope e) :=
  forall_mem_cons.mpr ⟨Scope.fieldsOf_eq_ok.mpr readable.names, forall_mem_flatMap.mpr readable.queries⟩

theorem exprsSites_pass {exprs : List (Expr Query)} (readable : ∀ e ∈ exprs, c.Readable steps scope e) :
    c.PassAll (exprs.flatMap (exprSites steps scope)) :=
  forall_mem_flatMap.mpr fun e member => (readable e member).pass

mutual

theorem relationSites_pass : ∀ r : Relation Query, c.AcceptsRelation r →
    (∀ p ∈ c.relationExprs r, c.Readable steps ({ fields := p.1 } :: scope) p.2) →
    (∀ x ∈ r.inner .visited, c.PassAll (steps x scope)) → c.PassAll (c.relationSites steps scope r)
  | .table _ (some _) _ _ _, accepted, _, _ | .table _ none _ _ _, accepted, _, _ => by
    rw [AcceptsRelation] at accepted
    rw [relationSites]
    exact forall_mem_singleton.mpr accepted
  | .derived _ query _, _, _, inner => by
    rw [relationSites]
    exact inner query (by simp [Relation.inner])
  | .nested first joins label, accepted, readable, inner => by
    rw [AcceptsRelation] at accepted
    rw [relationExprs, forall_mem_append] at readable
    rw [Relation.inner, forall_mem_append] at inner
    rw [relationSites]
    exact forall_mem_append.mpr ⟨relationSites_pass first accepted.1 readable.1 inner.1,
      joinsSites_pass _ joins accepted.2 readable.2 inner.2⟩
  | .unnest arrays _, _, readable, _ => by
    rw [relationExprs, forall_mem_map] at readable
    rw [relationSites]
    exact exprsSites_pass readable
  | .pivot _ _, accepted, _, _ | .other _, accepted, _, _ => by
    rw [AcceptsRelation] at accepted
    exact accepted.elim

theorem joinsSites_pass : ∀ (left : List Field) (js : List (Join Query)), c.AcceptsJoins js →
    (∀ p ∈ c.joinsExprs left js, c.Readable steps ({ fields := p.1 } :: scope) p.2) →
    (∀ x ∈ Join.innerAll .visited js, c.PassAll (steps x scope)) → c.PassAll (c.joinsSites steps scope left js)
  | left, [], _, _, _ => by
    rw [joinsSites]
    exact forall_mem_nil _
  | left, .mk _ _ relation constraint :: rest, accepted, readable, inner => by
    rw [AcceptsJoins] at accepted
    simp only [joinsExprs, forall_mem_append, forall_mem_map] at readable
    simp only [Join.innerAll, Reach.aside, append_nil, forall_mem_append] at inner
    rw [joinsSites]
    refine forall_mem_append.mpr ⟨forall_mem_append.mpr ⟨?_, exprsSites_pass readable.1.2⟩, ?_⟩
    · exact relationSites_pass relation accepted.1 readable.1.1 inner.1.1
    · exact joinsSites_pass _ rest accepted.2 readable.2 inner.2

end

theorem sourceSites_pass (accepted : c.AcceptsSource source)
    (readable : ∀ p ∈ c.sourceExprs source, c.Readable steps ({ fields := p.1 } :: scope) p.2)
    (inner : ∀ x ∈ source.flatMap (FromItem.inner .visited), c.PassAll (steps x scope)) :
    c.PassAll (c.sourceSites steps scope source) := by
  refine forall_mem_flatMap.mpr fun item member => ?_
  have exprs := forall_mem_append.mp fun p listed => readable p (mem_flatMap.mpr ⟨item, member, listed⟩)
  have queries := forall_mem_append.mp fun x listed => inner x (mem_flatMap.mpr ⟨item, member, listed⟩)
  exact forall_mem_append.mpr ⟨relationSites_pass item.first (accepted item member).1 exprs.1 queries.1,
    joinsSites_pass _ item.joins (accepted item member).2 exprs.2 queries.2⟩

structure ReadableSelect (c : Context) (steps : Query → Scope → List Site) (scope : Scope) (s : Select Query) :
    Prop where
  source : ∀ p ∈ c.sourceExprs s.source, c.Readable steps ({ fields := p.1 } :: scope) p.2
  inner : ∀ x ∈ s.source.flatMap (FromItem.inner .visited), c.PassAll (steps x scope)
  clauses : ∀ e ∈ s.exprs .visited, c.Readable steps ({ fields := c.sourceFields s.source } :: scope) e

theorem selectSites_pass (item : SelectItem Query) (readable : ∀ e ∈ item.exprs .visited, c.Readable steps scope e) :
    c.PassAll (selectSites steps scope item) := by
  have output (e : Expr Query) (label : String) (readable : c.Readable steps scope e) :
      c.PassAll ((scope, .output e label) :: exprSites steps scope e) := by
    refine forall_mem_cons.mpr ⟨fun name named => ?_, readable.pass⟩
    obtain ⟨path, member, rfl⟩ := Scope.mem_names_of_columnName named
    exact (readable.names path member).resolve
  cases item with
  | wildcard | qualifiedWildcard => exact forall_mem_singleton.mpr trivial
  | expr e | aliased e label => exact output e _ (readable e (mem_singleton_self e))

theorem clauseSites_pass {s : Select Query} (readable : ∀ e ∈ s.exprs .visited, c.Readable steps scope e) :
    c.PassAll (clauseSites steps s scope) := by
  simp only [Select.exprs, forall_mem_append, forall_mem_flatMap] at readable
  obtain ⟨⟨⟨⟨items, filter⟩, groupBy⟩, having⟩, qualify⟩ := readable
  have keys : ∀ e ∈ groupKeys s scope, c.Readable steps scope e := by
    intro e member
    unfold groupKeys at member
    unfold GroupBy.exprList at groupBy
    split at member
    · cases member
    · rename_i grouped
      rw [grouped] at groupBy
      exact groupBy e (mem_of_mem_filter member)
  refine forall_mem_append.mpr ⟨forall_mem_append.mpr ⟨?_, ?_⟩, exprsSites_pass ?_⟩
  · exact forall_mem_flatMap.mpr fun item member => selectSites_pass item (items item member)
  · refine forall_mem_flatMap.mpr fun e member => forall_mem_append.mpr ⟨(filter e member).pass, ?_⟩
    exact forall_mem_singleton.mpr (Scope.predicatesOf_ok (filter e member).names)
  · exact forall_mem_append.mpr ⟨keys, forall_mem_append.mpr ⟨having, qualify⟩⟩

theorem bodySites_pass : ∀ b : Body Query, c.AcceptsBody b →
    (∀ a ∈ b.selects [], c.ReadableSelect steps scope a.select) →
    (∀ e ∈ b.rowExprs, c.Readable steps ({} :: scope) e) → (∀ x ∈ b.operands, c.PassAll (steps x scope)) →
    c.PassAll (c.bodySites steps scope b)
  | .select s, accepted, selects, _, _ => by
    have readable := selects ⟨s, []⟩ mem_cons_self
    exact forall_mem_append.mpr ⟨sourceSites_pass accepted readable.source readable.inner,
      clauseSites_pass readable.clauses⟩
  | .query q, _, _, _, operands => operands q (mem_singleton_self q)
  | .setOp _ left right, accepted, selects, rows, operands => by
    simp only [Body.selects, Body.rowExprs, Body.operands, forall_mem_append] at selects rows operands
    exact forall_mem_append.mpr ⟨bodySites_pass left accepted.1 selects.1 rows.1 operands.1,
      bodySites_pass right accepted.2 selects.2 rows.2 operands.2⟩
  | .values rows _, _, _, readable, _ => exprsSites_pass readable
  | .table _, accepted, _, _, _ | .write _, accepted, _, _, _ => accepted.elim

theorem withSites_pass (recursive : Bool) : ∀ (earlier : List String) (ctes : List (Cte Query)),
    (earlier ++ ctes.map With.nameOf).Nodup →
    (∀ cte ∈ ctes, ∀ named, c.PassAll (steps cte.query ({ named } :: scope))) →
    c.PassAll (withSites steps recursive scope earlier ctes)
  | earlier, [], _, _ => forall_mem_nil _
  | earlier, cte :: rest, distinct, visits => by
    obtain ⟨first, others⟩ := forall_mem_cons.mp visits
    have fresh : ¬ earlier.contains cte.name.value = true := by
      intro taken
      exact (nodup_append.mp distinct).2.2 _ (contains_iff_mem.mp taken) _ mem_cons_self rfl
    rw [map_cons, append_cons] at distinct
    rw [withSites, if_neg fresh, nil_append]
    exact forall_mem_append.mpr ⟨first _, withSites_pass recursive _ rest distinct others⟩

theorem sitesAt_pass {n : Nat} {q : Query} (names : (With.names q).Nodup)
    (entries : ∀ cte ∈ q.ctes, ∀ named, c.PassAll (c.sitesAt n cte.query ({ named } :: scope)))
    (body : c.PassAll (c.bodySites (c.sitesAt n) (within q scope) q.body)) (order : ∀ e ∈ orderKeys q,
      c.Readable (c.sitesAt n) ({ fields := c.bodyFields (c.fieldsAt n) q.body } :: within q scope) e) :
    c.PassAll (c.sitesAt (n + 1) q scope) := by
  refine forall_mem_append.mpr ⟨withSites_pass q.recursive [] q.ctes names entries, ?_⟩
  refine forall_mem_append.mpr ⟨forall_mem_append.mpr ⟨body, exprsSites_pass order⟩, ?_⟩
  exact forall_mem_singleton.mpr trivial

end Reading

section Blank

variable {c : Context} {steps : Query → Scope → List Site} {scope : Scope} {s : Select Query}

/-- Some mentions bring no field into scope. -/
def Fieldless (c : Context) (mentions : List Mention) : Prop :=
  ∀ name, .table name ∈ mentions → c.tableFields name = []

theorem Fieldless.append {first second : List Mention} :
    c.Fieldless (first ++ second) ↔ c.Fieldless first ∧ c.Fieldless second := by
  simp only [Fieldless, mem_append, or_imp, forall_and]

theorem relabeled_nil (label : Option Alias) : relabeled label [] = [] := by
  cases label <;> rfl

mutual

theorem relationFields_fieldless : ∀ r : Relation Query, c.Fieldless r.mentions →
    c.relationFields r = [] ∧ ∀ p ∈ c.relationExprs r, p.1 = []
  | .table name none _ label _, fieldless => by
    rw [relationFields, relationExprs, fieldless name (by simp [Relation.mentions])]
    exact ⟨relabeled_nil label, forall_mem_nil _⟩
  | .nested first joins label, fieldless => by
    rw [Relation.mentions, Fieldless.append] at fieldless
    obtain ⟨head, inHead⟩ := relationFields_fieldless first fieldless.1
    obtain ⟨rest, inRest⟩ := joinsFields_fieldless joins fieldless.2
    rw [relationFields, relationExprs, head, rest]
    exact ⟨relabeled_nil label, forall_mem_append.mpr ⟨inHead, inRest⟩⟩
  | .unnest arrays _, _ => by
    rw [relationFields, relationExprs]
    exact ⟨rfl, forall_mem_map.mpr fun _ _ => rfl⟩
  | .table _ (some _) _ _ _, _ | .derived _ _ _, _ | .pivot _ _, _ | .other _, _ => by
    rw [relationFields, relationExprs]
    exact ⟨rfl, forall_mem_nil _⟩

theorem joinsFields_fieldless : ∀ js : List (Join Query), c.Fieldless (Join.mentionsAll js) →
    c.joinsFields js = [] ∧ ∀ p ∈ c.joinsExprs [] js, p.1 = []
  | [], _ => by
    rw [joinsFields, joinsExprs]
    exact ⟨rfl, forall_mem_nil _⟩
  | .mk _ _ relation constraint :: rest, fieldless => by
    rw [Join.mentionsAll, Fieldless.append] at fieldless
    obtain ⟨head, inHead⟩ := relationFields_fieldless relation fieldless.1
    obtain ⟨others, inOthers⟩ := joinsFields_fieldless rest fieldless.2
    simp only [joinsFields, joinsExprs, head, others, append_nil, forall_mem_append, forall_mem_map]
    exact ⟨trivial, ⟨inHead, fun _ _ => trivial⟩, inOthers⟩

end

theorem sourceFields_fieldless (fieldless : c.Fieldless (source.flatMap FromItem.mentions)) :
    c.sourceFields source = [] ∧ ∀ p ∈ c.sourceExprs source, p.1 = [] := by
  induction source with
  | nil => exact ⟨rfl, forall_mem_nil _⟩
  | cons item rest ih =>
    simp only [flatMap_cons, FromItem.mentions, Fieldless.append] at fieldless
    obtain ⟨first, inFirst⟩ := relationFields_fieldless item.first fieldless.1.1
    obtain ⟨joins, inJoins⟩ := joinsFields_fieldless item.joins fieldless.1.2
    obtain ⟨others, inOthers⟩ := ih fieldless.2
    constructor
    · rw [sourceFields] at others ⊢
      rw [flatMap_cons, itemFields, first, joins, others]
      rfl
    · rw [sourceExprs] at inOthers ⊢
      rw [flatMap_cons, itemExprs, first]
      exact forall_mem_append.mpr ⟨forall_mem_append.mpr ⟨inFirst, inJoins⟩, inOthers⟩

/-- A query goes through wherever no name means a field. -/
def PassesBlank (c : Context) (steps : Query → Scope → List Site) (q : Query) : Prop :=
  ∀ scope : Scope, scope.Blank → c.PassAll (steps q scope)

theorem PassesBlank.readable (passes : ∀ x ∈ e.queries, c.PassesBlank steps x)
    (blank : scope.Blank) : c.Readable steps scope e :=
  ⟨fun _ _ => blank.clear _, fun x member => passes x member scope blank⟩

theorem readable_source (blank : scope.Blank) (fieldless : c.Fieldless (source.flatMap FromItem.mentions))
    (passes : ∀ x ∈ source.flatMap (FromItem.inner .visited), c.PassesBlank steps x) :
    ∀ p ∈ c.sourceExprs source, c.Readable steps ({ fields := p.1 } :: scope) p.2 := by
  intro p member
  rw [(sourceFields_fieldless fieldless).2 p member]
  exact PassesBlank.readable (fun x found => passes x (mem_inner_of_sourceExprs member found)) (blank.cons rfl)

theorem readable_select (blank : scope.Blank) (fieldless : c.Fieldless (s.source.flatMap FromItem.mentions))
    (passes : ∀ x ∈ s.inner .visited, c.PassesBlank steps x) : c.ReadableSelect steps scope s := by
  have inSource : ∀ x ∈ s.source.flatMap (FromItem.inner .visited), c.PassesBlank steps x :=
    fun x member => passes x (mem_append_left _ (mem_append_left _ member))
  refine ⟨readable_source blank fieldless inSource, fun x member => inSource x member scope blank, fun e member => ?_⟩
  rw [(sourceFields_fieldless fieldless).1]
  refine PassesBlank.readable (fun x found => passes x ?_) (blank.cons rfl)
  have nested : x ∈ Clauses.queries .visited ⟨s, []⟩ :=
    mem_flatMap.mpr ⟨e, mem_append_left _ member, found⟩
  rw [Clauses.queries_eq] at nested
  simp only [orderQueries, flatMap_nil, append_nil] at nested
  exact mem_append_left _ (mem_append_right _ nested)

theorem bodySites_blank (blank : scope.Blank) (b : Body Query) (accepted : c.AcceptsBody b)
    (fieldless : c.Fieldless b.mentions) (passes : ∀ x ∈ b.inner .visited, c.PassesBlank steps x) :
    c.PassAll (c.bodySites steps scope b) := by
  induction b with
  | select s =>
    have readable := readable_select blank fieldless passes
    exact forall_mem_append.mpr ⟨sourceSites_pass accepted readable.source readable.inner,
      clauseSites_pass readable.clauses⟩
  | query q => exact passes q (mem_singleton_self q) scope blank
  | setOp _ left right leftPass rightPass =>
    rw [Body.mentions, Fieldless.append] at fieldless
    rw [Body.inner, forall_mem_append] at passes
    exact forall_mem_append.mpr ⟨leftPass accepted.1 fieldless.1 passes.1, rightPass accepted.2 fieldless.2 passes.2⟩
  | values rows _ =>
    simp only [Body.inner, forall_mem_flatMap] at passes
    refine exprsSites_pass fun e member => ?_
    obtain ⟨row, listed, member⟩ := mem_flatten.mp member
    exact PassesBlank.readable (passes row listed e member) (blank.cons rfl)
  | table | write => exact accepted.elim

theorem fieldsAt_fieldless : ∀ (n : Nat) (q : Query), (∀ x, q.Contains .visited x → c.Fieldless x.body.mentions) →
    c.fieldsAt n q = []
  | 0, _, _ => rfl
  | n + 1, q, fieldless => by
    have own := fieldless q .self
    rw [fieldsAt]
    cases shape : q.body with
    | select s =>
      rw [shape] at own
      exact (sourceFields_fieldless own).1
    | query x =>
      refine fieldsAt_fieldless n x fun y contained => fieldless y (.nested ?_ contained)
      simp [Query.inner, shape, Body.inner]
    | setOp | values | table | write => rfl

/-- A query goes through in a blank scope if all its levels are accepted and name nothing with fields. -/
theorem sitesAt_blank : ∀ (n : Nat) (q : Query),
    (∀ x, q.Contains .visited x → c.Accepts x ∧ c.Fieldless x.body.mentions) → c.PassesBlank (c.sitesAt n) q
  | 0, q, _ => fun scope blank => forall_mem_nil _
  | n + 1, q, levels => by
    intro scope blank
    obtain ⟨accepted, fieldless⟩ := levels q .self
    have inner : ∀ x ∈ q.inner .visited, c.PassesBlank (c.sitesAt n) x := fun x member =>
      sitesAt_blank n x fun y contained => levels y (.nested member contained)
    simp only [Query.inner, Reach.aside, append_nil, forall_mem_append] at inner
    have inside : (within q scope).Blank := by
      unfold within
      split
      · exact blank
      · exact blank.cons rfl
    refine sitesAt_pass accepted.2 (fun cte member named => ?_) ?_ (fun e member => ?_)
    · exact sitesAt_blank n cte.query (fun y contained => levels y (.entry member contained)) _ (blank.cons rfl)
    · exact bodySites_blank inside q.body accepted.1 fieldless inner.1
    · have none := fieldsAt_fieldless (n + 1) q fun x contained => (levels x contained).2
      refine PassesBlank.readable (fun x found => inner.2 x ?_) (inside.cons none)
      rw [← orderKeys_queries]
      exact mem_flatMap.mpr ⟨e, member, found⟩

/-- A FROM clause that is accepted and names nothing with fields has a blank scope, in any blank one. -/
theorem sourceScope_blank (accepted : c.AcceptsWithin s.source)
    (fieldless : c.Fieldless (s.source.flatMap FromItem.mentions))
    (inner : ∀ x ∈ s.source.flatMap (FromItem.inner .visited), ∀ y, x.Contains .visited y → c.Fieldless y.body.mentions)
    (blank : scope.Blank) : c.sourceScope s scope = .ok ({} :: scope) := by
  have passes : ∀ x ∈ s.source.flatMap (FromItem.inner .visited), c.PassesBlank c.sites x := by
    intro x member
    apply sitesAt_blank x.height x
    exact fun y contained => ⟨accepted.2 x member y contained, inner x member y contained⟩
  refine sourceScope_eq_ok.mpr ⟨?_, by rw [(sourceFields_fieldless fieldless).1]⟩
  exact sourceSites_pass accepted.1 (readable_source blank fieldless passes) fun x member => passes x member scope blank

end Blank

end Context

end SemanticLayer
