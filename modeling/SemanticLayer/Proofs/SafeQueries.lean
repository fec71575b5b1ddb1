import SemanticLayer.Proofs.Guards
import SemanticLayer.Proofs.OtherScopes
import SemanticLayer.Proofs.PassThrough

/-! # Queries whose names are secure

If all names in a query are secure, an analysis of the query goes through, and there is nothing in it to be joined.
-/

namespace SemanticLayer

open Sql List

namespace Sql

mutual

theorem Relation.inner_visited_subset : ∀ {r : Relation Query} {x : Query}, x ∈ r.inner .visited → x ∈ r.inner .written
  | .nested first joins _, x, member => by
    rw [Relation.inner, mem_append] at member ⊢
    exact member.imp Relation.inner_visited_subset Join.innerAll_visited_subset
  | .pivot source _, x, member => by
    rw [Relation.inner, mem_append] at member ⊢
    exact .inl (Relation.inner_visited_subset (member.resolve_right not_mem_nil))
  | .derived _ _ _, x, member | .unnest _ _, x, member => by
    rw [Relation.inner] at member ⊢
    exact member
  | .table _ _ _ _ _, x, member | .other _, x, member => by
    rw [Relation.inner] at member
    cases member

theorem Join.innerAll_visited_subset : ∀ {js : List (Join Query)} {x : Query}, x ∈ Join.innerAll .visited js →
    x ∈ Join.innerAll .written js
  | [], x, member => by
    rw [Join.innerAll] at member
    cases member
  | .mk _ _ relation constraint :: rest, x, member => by
    rw [Join.innerAll, mem_append, mem_append, mem_append] at member ⊢
    rcases member with ((inRelation | aside) | compared) | later
    · exact .inl (.inl (.inl (Relation.inner_visited_subset inRelation)))
    · cases aside
    · exact .inl (.inr compared)
    · exact .inr (Join.innerAll_visited_subset later)

end

theorem Select.exprs_visited_subset {s : Select Query} {e : Expr Query} (member : e ∈ s.exprs .visited) :
    e ∈ s.exprs .written := by
  simp only [Select.exprs, mem_append] at member ⊢
  refine member.imp_left (Or.imp_left (Or.imp_left (Or.imp_left fun listed => ?_)))
  obtain ⟨item, here, member⟩ := mem_flatMap.mp listed
  refine mem_flatMap.mpr ⟨item, here, ?_⟩
  cases item with
  | wildcard | qualifiedWildcard => cases member
  | expr | aliased => exact member

end Sql

theorem Clauses.inner_visited_subset {a : Clauses} {x : Query} (member : x ∈ a.inner .visited) : x ∈ a.inner .written := by
  obtain ⟨item, listed, member⟩ := mem_flatMap.mp member
  refine mem_flatMap.mpr ⟨item, listed, mem_append.mpr ?_⟩
  exact (mem_append.mp member).imp Relation.inner_visited_subset Join.innerAll_visited_subset

theorem aliasNames_subset {items : List (SelectItem Query)} {name : String} (member : name ∈ aliasNames items) :
    name ∈ outputNames items := by
  obtain ⟨item, listed, named⟩ := mem_filterMap.mp member
  refine mem_filterMap.mpr ⟨item, listed, ?_⟩
  cases item with
  | aliased => exact named
  | wildcard | qualifiedWildcard | expr => cases named

namespace Scope

variable {s s' : Scope}

theorem Blank.agrees_nil (blank : s.Blank) : s.Agrees [] := fun name => blank.resolve name

end Scope

namespace Context

variable {c : Context} {targets : List String}

section Visiting

variable {steps : Query → Scope → List Site} {s scope : Scope}

/-- A query that is safe in a scope goes through wherever names mean the same. -/
def VisitsSafe (c : Context) (targets : List String) (steps : Query → Scope → List Site) : Prop :=
  ∀ x s, c.Safe targets (c.Secure targets) s x → s.Distinct → ∀ scope : Scope, scope.Agrees s →
    c.PassAll (steps x scope)

theorem SafeCondition.readable (visits : c.VisitsSafe targets steps) (agrees : scope.Agrees s) (distinct : s.Distinct)
    {fields : List Field} {e : Expr Query} (safe : c.SafeCondition targets s fields e)
    (queries : ∀ x ∈ e.queries, c.Safe targets (c.Secure targets) [] x) : c.Readable steps ({ fields } :: scope) e := by
  have inside : Scope.Agrees ({ fields } :: scope) ({ fields } :: s) := agrees.cons rfl
  rcases safe with blank | ⟨distinctHere, none, secure⟩
  · constructor
    · exact fun name _ => inside.clear (blank.clear _)
    · exact fun x member => visits x [] (queries x member) .nil _ (inside.trans blank.agrees_nil)
  · constructor
    · exact fun name member => inside.clear ((secure name member).clear ⟨s, rfl⟩ (.cons distinctHere distinct)).1
    · rw [none]
      exact forall_mem_nil _

theorem SafeSelect.readable (visits : c.VisitsSafe targets steps) (agrees : scope.Agrees s) (distinct : s.Distinct)
    {a : Clauses} (safe : c.SafeSelect targets (c.Secure targets) s a)
    (holding : c.Holding (c.Safe targets (c.Secure targets)) s a) : c.ReadableSelect steps scope a.select := by
  have distinctInside : Scope.Distinct (c.frame a :: s) := .cons safe.distinct distinct
  refine ⟨fun p member => ?_, fun x member => ?_, fun e member => ⟨fun name named => ?_, fun x found => ?_⟩⟩
  · refine (safe.conditions p member).readable visits agrees distinct fun x found => holding.source x ?_
    exact Clauses.inner_visited_subset (mem_inner_of_sourceExprs member found)
  · rcases safe.derived with none | blank
    · change x ∈ a.inner .visited at member
      rw [none] at member
      cases member
    · have apart := holding.source x (Clauses.inner_visited_subset member)
      exact visits x [] apart .nil scope (agrees.trans blank.agrees_nil)
  · have secure := safe.clause e (Select.exprs_visited_subset member) name named
    exact (agrees.cons rfl).clear (secure.clear (prefix_refl _) distinctInside).1
  · have inClauses : x ∈ a.queries .written :=
      mem_flatMap.mpr ⟨e, mem_append_left _ (Select.exprs_visited_subset member), found⟩
    exact visits x _ (holding.nested x inClauses) distinctInside _ (agrees.cons rfl)

theorem SafeSelect.readable_order (visits : c.VisitsSafe targets steps) (agrees : scope.Agrees s)
    (distinct : s.Distinct) {a : Clauses} (safe : c.SafeSelect targets (c.Secure targets) s a)
    (holding : c.Holding (c.Safe targets (c.Secure targets)) s a) {item : OrderItem Query} (member : item ∈ a.orderBy)
    (visited : isOutputName (outputNames a.select.items) item.expr = false) :
    c.Readable steps (c.frame a :: scope) item.expr := by
  have distinctInside : Scope.Distinct (c.frame a :: s) := .cons safe.distinct distinct
  refine ⟨fun name named => ?_, fun x found => ?_⟩
  · rcases safe.order item member with ⟨label, bare, hidden⟩ | secure
    · simp [isOutputName, bare, aliasNames_subset hidden] at visited
    · exact (agrees.cons rfl).clear ((secure name named).clear (orderReach_near a name s) distinctInside).1
  · have inClauses : x ∈ a.queries .written :=
      mem_flatMap.mpr ⟨item.expr, mem_append_right _ (mem_map_of_mem member), found⟩
    exact visits x _ (holding.nested x inClauses) distinctInside _ (agrees.cons rfl)

theorem readable_loose (agrees : scope.Agrees s) (distinct : s.Distinct) {e : Expr Query}
    (loose : e.queries = [] ∧ ∀ name ∈ e.names, c.Steady targets s name) : c.Readable steps scope e := by
  refine ⟨fun name named => agrees.clear ((loose.2 name named).clear distinct).1, ?_⟩
  rw [loose.1]
  exact forall_mem_nil _

end Visiting

/-- The selects of a body do not depend on ORDER BY, but for the ORDER BY of a SELECT that stands alone. -/
theorem selects_unordered : ∀ (b : Body Query) (orderBy : List (OrderItem Query)) (a : Clauses), a ∈ b.selects [] →
    ∃ order, ⟨a.select, order⟩ ∈ b.selects orderBy
  | .select s, orderBy, a, member => by
    cases mem_singleton.mp member
    exact ⟨orderBy, mem_singleton_self _⟩
  | .setOp _ _ _, _, a, member => ⟨a.orderBy, member⟩

theorem sitesAt_safe : ∀ n, c.VisitsSafe targets (c.sitesAt n)
  | 0 => fun _ _ _ _ _ _ => forall_mem_nil _
  | n + 1 => by
    intro q s safe distinct scope agrees
    have visits : c.VisitsSafe targets (c.sitesAt n) := sitesAt_safe n
    have level := safe.level
    have inside : (within q scope).Agrees s := (within_agrees q scope).trans agrees
    have apart : Scope.Agrees ({} :: within q scope) s := (Scope.agrees_named [] _).trans inside
    refine sitesAt_pass level.accepted.2 (fun cte member named => ?_) ?_ fun e member => ?_
    · exact visits cte.query s (safe.entry member) distinct _ ((Scope.agrees_named named scope).trans agrees)
    · refine bodySites_pass q.body level.accepted.1 (fun a member => ?_) (fun e member => ?_) fun x member => ?_
      · obtain ⟨order, listed⟩ := selects_unordered q.body q.orderBy a member
        exact (level.selects _ listed).readable visits inside distinct (safe.holding listed)
      · exact readable_loose apart distinct (level.loose e (mem_append_left _ member))
      · exact visits x s (safe.operand member) distinct _ inside
    · obtain ⟨listed, visited⟩ := mem_filter.mp member
      obtain ⟨item, inOrder, rfl⟩ := mem_map.mp listed
      simp only [Bool.not_eq_true'] at visited
      cases body : q.body with
      | select sel =>
        rw [body] at visited
        have here : ⟨sel, q.orderBy⟩ ∈ q.body.selects q.orderBy := by simp [body, Body.selects]
        exact (level.selects _ here).readable_order visits inside distinct (safe.holding here) inOrder visited
      | query x =>
        -- A query in parentheses has no ORDER BY outside of them.
        rw [level.alone (by rw [body]; rfl)] at inOrder
        cases inOrder
      | setOp | values | table | write =>
        refine readable_loose apart distinct (level.loose _ (mem_append_right _ (mem_map_of_mem ?_)))
        rwa [Query.looseOrder, body, Body.isSelect, if_neg Bool.false_ne_true]

section Joining

variable {s : Scope} {a : Clauses}

theorem dereference_eq_pure {l : Layer} {name : Path} (clear : s.Clear name.values)
    (direct : ∀ f rest, s.reference name.values ≠ .ok (.through f rest)) : dereference l s name = pure (.path name) := by
  obtain ⟨r, meaning⟩ := clear
  rw [dereference_eq, meaning]
  cases r with
  | nothing | field => rfl
  | through f rest => exact absurd meaning (direct f rest)

/-- The names of a SELECT can be looked up and go through nothing, but for aliases that ORDER BY consists of. -/
theorem SafeSelect.names_clear (safe : c.SafeSelect targets (c.Secure targets) s a) (distinct : s.Distinct)
    {e : Expr Query} (member : e ∈ a.exprs .written) : (∃ label, e = .ident label) ∨ ∀ name ∈ e.names,
      Scope.Clear (c.frame a :: s) name.values ∧
        ∀ f rest, Scope.reference (c.frame a :: s) name.values ≠ .ok (.through f rest) := by
  have distinctInside : Scope.Distinct (c.frame a :: s) := .cons safe.distinct distinct
  rcases mem_append.mp member with clause | order
  · exact .inr fun name named => (safe.clause e clause name named).clear (prefix_refl _) distinctInside
  · obtain ⟨item, listed, rfl⟩ := mem_map.mp order
    rcases safe.order item listed with ⟨label, bare, _⟩ | secure
    · exact .inl ⟨label, bare⟩
    · exact .inr fun name named => (secure name named).clear (orderReach_near a name s) distinctInside

theorem SafeSelect.dereferences (safe : c.SafeSelect targets (c.Secure targets) s a) (distinct : s.Distinct) :
    SemanticLayer.dereferences c.layer a (c.frame a :: s) = .ok (a, []) := by
  have walked : a.walk { Expr.Walk.keep (StateT (List RelatedJoin) (Except CompileError)) Query with
      path := dereference c.layer (c.frame a :: s) } = pure a := by
    refine Clauses.walk_eq_pure a fun e member => ?_
    rcases safe.names_clear distinct member with ⟨label, rfl⟩ | clear
    · rw [Expr.walk]
      rfl
    · refine Expr.walk_eq_pure (fun _ => rfl) (fun _ => rfl) e (fun name dotted => ?_) fun _ _ => rfl
      have named := Expr.paths_subset_names e name dotted
      exact dereference_eq_pure (clear name named).1 (clear name named).2
  rw [SemanticLayer.dereferences, walked]
  rfl

theorem SafeSelect.sourceScope (safe : c.SafeSelect targets (c.Secure targets) s a)
    (holding : c.Holding (c.Safe targets (c.Secure targets)) s a) (distinct : s.Distinct)
    (accepted : c.AcceptsSource a.select.source) : c.sourceScope a.select s = .ok (c.frame a :: s) := by
  have visits : c.VisitsSafe targets c.sites := fun q => sitesAt_safe q.height q
  have readable := safe.readable visits (fun _ => rfl) distinct holding
  exact sourceScope_eq_ok.mpr ⟨sourceSites_pass accepted readable.source readable.inner, rfl⟩

theorem joinQueryUpTo_safe : ∀ (n : Nat) (q : Query) (s : Scope), c.Safe targets (c.Secure targets) s q → s.Distinct →
    Rests (c.joinQueryUpTo (SemanticLayer.dereferences c.layer) n) s q
  | 0, _, _, _, _ => rfl
  | n + 1, q, s, safe, distinct => by
    refine joinQueryWith_rests (fun cte member => ?_) (fun a member => ?_) fun x member => ?_
    · exact joinQueryUpTo_safe n cte.query s (safe.entry member) distinct
    · have select := safe.level.selects a member
      have holding := safe.holding member
      have accepted := accepts_of_select member safe.level.accepted.1
      refine ⟨select.sourceScope holding distinct accepted, select.dereferences distinct, fun x nested => ?_,
        fun x nested => ?_⟩
      · exact joinQueryUpTo_safe n x _ (holding.nested x nested) (.cons select.distinct distinct)
      · exact joinQueryUpTo_safe n x [] (holding.source x nested) .nil
    · exact joinQueryUpTo_safe n x s (safe.operand member) distinct

end Joining

theorem Holds.encloses {parent s : Scope} {q : Query} {a : Clauses} (holds : c.Holds .written parent q s a) :
    ∃ t x, c.Encloses parent q t x ∧ a ∈ x.body.selects x.orderBy ∧ s = c.frame a :: t := by
  induction holds with
  | here member => exact ⟨_, _, .self, member, rfl⟩
  | clause member nested _ ih =>
    obtain ⟨t, x, inside, here, same⟩ := ih
    exact ⟨t, x, .clause member nested inside, here, same⟩
  | source member nested _ ih =>
    obtain ⟨t, x, inside, here, same⟩ := ih
    exact ⟨t, x, .source member nested inside, here, same⟩
  | operand member _ ih =>
    obtain ⟨t, x, inside, here, same⟩ := ih
    exact ⟨t, x, .operand member inside, here, same⟩
  | entry member _ ih =>
    obtain ⟨t, x, inside, here, same⟩ := ih
    exact ⟨t, x, .entry member inside, here, same⟩

theorem Encloses.distinct {rule : Scope → Scope → Path → Prop} {s t : Scope} {q x : Query} (inside : c.Encloses s q t x)
    (safe : c.Safe targets rule s q) (distinct : s.Distinct) : t.Distinct := by
  induction inside with
  | self => exact distinct
  | clause member nested _ ih =>
    exact ih ((safe.holding member).nested _ nested) (.cons (safe.level.selects _ member).distinct distinct)
  | source member nested _ ih => exact ih ((safe.holding member).source _ nested) .nil
  | operand member _ ih => exact ih (safe.operand member) distinct
  | entry member _ ih => exact ih (safe.entry member) distinct

end Context

end SemanticLayer
