import SemanticLayer.Proofs.Guards

/-! # Names that are qualified stay secure

Before a model is joined to a SELECT, the bare names of the SELECT, and the names in nested queries that mean its
fields, are written with their relations. A query whose names are secure in its scope is then secure in every scope
that has swollen since.
-/

namespace SemanticLayer

open Sql List
open Judgement (returns returns_bind)

/-- What qualifying does with a name: a dotted one stays; a bare one stays if it is hidden or means no field, and gets
its relation otherwise. -/
inductive Scope.Settles (s : Scope) (hidden : Ident → Prop) : Path → Path → Prop
  | dotted {name : Path} : name.Dotted → Settles s hidden name name
  | hidden {bare : Ident} : hidden bare → Settles s hidden [bare] [bare]
  | unknown {bare : Ident} : s.resolve [bare.value] = .ok none → Settles s hidden [bare] [bare]
  | qualified {bare relation : Ident} : s.Knows (Path.values [relation, bare]) →
      Settles s hidden [bare] [relation, bare]

namespace Sql.Expr

variable {good : Path → Prop}

theorem Rewritten.comp {renamed₁ renamed₂ renamed : Path → Path → Prop}
    {related₁ related₂ related : Query → Query → Prop} {e e' e'' : Expr Query}
    (first : e.Rewritten good renamed₁ related₁ e') (second : e'.Rewritten good renamed₂ related₂ e'')
    (names : ∀ n₁ n₂ n₃, renamed₁ n₁ n₂ → renamed₂ n₂ n₃ → renamed n₁ n₃)
    (queries : ∀ q₁ q₂ q₃, related₁ q₁ q₂ → related₂ q₂ q₃ → related q₁ q₃) : e.Rewritten good renamed related e'' :=
  ⟨⟨forall₂_compose names first.names second.names, forall₂_compose queries first.queries second.queries⟩, second.paths⟩

theorem walk_nested {m : Type → Type} [Monad m] [LawfulMonad m] {J : Judgement m} {f : Query → m Query}
    {related : Query → Query → Prop} {e : Expr Query} (paths : ∀ name ∈ e.paths, good name)
    (queries : ∀ q ∈ e.queries, J.holds (f q) (related q)) :
    J.holds (e.walk { Expr.Walk.keep m Query with query := f }) (e.Rewritten good Eq related) := by
  refine Expr.walk_lifts Expr.Rewritten.congruence (fun name => J.pure ⟨⟨.cons rfl .nil, .nil⟩, forall_mem_nil _⟩) e
    (fun name member => J.pure ⟨⟨.cons rfl .nil, .nil⟩, ?_⟩) queries
  exact forall_mem_singleton.mpr (paths name member)

theorem qualifyWalk_settles {s : Scope} (named : s.Named) (nearer : Option Scope) (outputs : List String)
    {e : Expr Query} (dotted : ∀ name ∈ e.paths, name.Dotted) : returns.holds (e.walk (qualifyWalk s nearer outputs))
      (e.Rewritten Path.Dotted (s.Settles (Hides nearer outputs)) Eq) := by
  refine Expr.walk_lifts Expr.Rewritten.congruence (fun name => ?_) e (fun name member => returns.pure ⟨⟨.cons ?_ .nil, .nil⟩, ?_⟩)
    fun q _ => returns.pure rfl
  · refine returns.mono (qualifyWalk_ident s nearer outputs name) ?_
    rintro e (⟨rfl, hidden | unknown⟩ | ⟨field, meaning, rfl⟩)
    · exact ⟨⟨.cons (.hidden hidden) .nil, .nil⟩, forall_mem_nil _⟩
    · exact ⟨⟨.cons (.unknown unknown) .nil, .nil⟩, forall_mem_nil _⟩
    · refine ⟨⟨.cons (.qualified ?_) .nil, .nil⟩, forall_mem_singleton.mpr (Nat.le_refl 2)⟩
      simpa [Path.values] using named.knows_qualified meaning
  · exact .dotted (dotted name member)
  · exact forall_mem_singleton.mpr (dotted name member)

end Sql.Expr

/-- Clauses in the place of other ones. An alias that ORDER BY consists of stays. -/
structure Clauses.Replaced (clause order : Path → Path → Prop) (related relatedInOrder : Query → Query → Prop)
    (a b : Clauses) : Prop where
  aliases : aliasNames b.select.items = aliasNames a.select.items
  clauses : ∀ e' ∈ b.select.exprs .written, ∃ e ∈ a.select.exprs .written, e.Rewritten Path.Dotted clause related e'
  ordering : ∀ item' ∈ b.orderBy, ∃ item ∈ a.orderBy,
    item.expr.Rewritten Path.Dotted order relatedInOrder item'.expr ∧
      ∀ name, item.expr = .ident name → name.value ∈ aliasNames a.select.items → item'.expr = .ident name

theorem Clauses.mem_queries_of_select {a : Clauses} {x : Query}
    (member : x ∈ (a.select.exprs .written).flatMap Expr.queries) : x ∈ a.queries .written := by
  rw [Clauses.queries, Clauses.exprs, flatMap_append]
  exact mem_append_left _ member

theorem Clauses.walkSelect_nested {m : Type → Type} [Monad m] [LawfulMonad m] {J : Judgement m} {f : Query → m Query}
    {renamed : Path → Path → Prop} {related : Query → Query → Prop} {s s₁ : Select Query}
    (first : ∀ e' ∈ s₁.exprs .written, ∃ e ∈ s.exprs .written, e.Rewritten Path.Dotted renamed Eq e')
    (visits : ∀ x ∈ (s.exprs .written).flatMap Expr.queries, J.holds (f x) (related x)) :
    J.holds (Clauses.walkSelect { Expr.Walk.keep m Query with query := f } s₁) fun s₂ => s₂.source = s₁.source ∧
      aliasNames s₂.items = aliasNames s₁.items ∧
      ∀ e'' ∈ s₂.exprs .written, ∃ e ∈ s.exprs .written, e.Rewritten Path.Dotted renamed related e'' := by
  have second : ∀ e' ∈ s₁.exprs .written, J.holds (e'.walk { Expr.Walk.keep m Query with query := f })
      (e'.Rewritten Path.Dotted Eq related) := by
    intro e' member
    obtain ⟨e, listed, rewritten⟩ := first e' member
    refine Expr.walk_nested rewritten.paths fun x found => visits x ?_
    have kept := forall₂_eq_eq_eq ▸ rewritten.queries
    exact mem_flatMap.mpr ⟨e, listed, kept ▸ found⟩
  refine J.mono (Clauses.walkSelect_lifts second) fun s₂ ⟨⟨source, _⟩, aliases, pairs⟩ => ⟨source, aliases, ?_⟩
  intro e'' member
  obtain ⟨e', listed', queries⟩ := forall₂_exists (pairs .written).flip e'' member
  obtain ⟨e, listed, names⟩ := first e' listed'
  refine ⟨e, listed, names.comp queries (fun _ _ _ changed same => same ▸ changed) fun _ _ _ same changed => ?_⟩
  exact same ▸ changed

namespace Clauses.Replaced

variable {clause order : Path → Path → Prop} {related relatedInOrder : Query → Query → Prop} {a b : Clauses}

theorem dotted (replaced : a.Replaced clause order related relatedInOrder b) {e' : Expr Query}
    (member : e' ∈ b.exprs .written) : ∀ name ∈ e'.paths, name.Dotted := by
  rcases mem_append.mp member with clause | order
  · obtain ⟨e, _, rewritten⟩ := replaced.clauses e' clause
    exact rewritten.paths
  · obtain ⟨item', listed, rfl⟩ := mem_map.mp order
    obtain ⟨item, _, rewritten, _⟩ := replaced.ordering item' listed
    exact rewritten.paths

theorem queries (replaced : a.Replaced clause order related relatedInOrder b) {x' : Query}
    (member : x' ∈ b.queries .written) :
    ∃ x ∈ a.queries .written, related x x' ∨ x ∈ orderQueries a.orderBy ∧ relatedInOrder x x' := by
  obtain ⟨e', inClauses, inside⟩ := mem_flatMap.mp member
  rcases mem_append.mp inClauses with clause | order
  · obtain ⟨e, listed, rewritten⟩ := replaced.clauses e' clause
    obtain ⟨x, found, same⟩ := forall₂_exists rewritten.queries.flip x' inside
    exact ⟨x, mem_flatMap.mpr ⟨e, mem_append_left _ listed, found⟩, .inl same⟩
  · obtain ⟨item', ordered, rfl⟩ := mem_map.mp order
    obtain ⟨item, listed, rewritten, _⟩ := replaced.ordering item' ordered
    obtain ⟨x, found, same⟩ := forall₂_exists rewritten.queries.flip x' inside
    refine ⟨x, mem_flatMap.mpr ⟨item.expr, mem_append_right _ (mem_map_of_mem listed), found⟩, .inr ?_⟩
    exact ⟨mem_flatMap.mpr ⟨item, listed, found⟩, same⟩

end Clauses.Replaced

namespace Context

variable {c : Context} {targets : List String} {s s' : Scope}

/-- The names of clauses obey a rule if the names that they are in the place of obey another one. -/
theorem SafeNames.replaced {rule rule' : Scope → Scope → Path → Prop} {clause order : Path → Path → Prop}
    {related relatedInOrder : Query → Query → Prop} {a b : Clauses} (names : c.SafeNames rule s a)
    (replaced : a.Replaced clause order related relatedInOrder b)
    (clauses : ∀ name name', clause name name' → rule (c.frame a :: s) (c.frame a :: s) name →
      rule' (c.frame b :: s') (c.frame b :: s') name')
    (ordering : ∀ name name', order name name' → rule (c.orderReach a name) (c.frame a :: s) name →
      rule' (c.orderReach b name') (c.frame b :: s') name') : c.SafeNames rule' s' b := by
  refine ⟨fun e' member => replaced.dotted member, fun e' member name' named => ?_, fun item' member => ?_⟩
  · obtain ⟨e, listed, rewritten⟩ := replaced.clauses e' member
    obtain ⟨name, found, becomes⟩ := forall₂_exists rewritten.names.flip name' named
    exact clauses name name' becomes (names.clause e listed name found)
  · obtain ⟨item, listed, rewritten, stays⟩ := replaced.ordering item' member
    rcases names.order item listed with ⟨label, bare, hidden⟩ | obeys
    · exact .inl ⟨label, stays label bare hidden, replaced.aliases ▸ hidden⟩
    · refine .inr fun name' named => ?_
      obtain ⟨name, found, becomes⟩ := forall₂_exists rewritten.names.flip name' named
      exact ordering name name' becomes (obeys name found)

section Swelling

variable (larger : c.Swells targets s s')

include larger

theorem Secure.swells {reach : Scope} {name : Path} (secure : c.Secure targets reach s name) :
    c.Secure targets reach s' name :=
  secure.imp_left fun steady => steady.swells larger

theorem SafeCondition.swells {fields : List Field} {e : Expr Query} (safe : c.SafeCondition targets s fields e) :
    c.SafeCondition targets s' fields e := by
  rcases safe with blank | ⟨distinct, none, secure⟩
  · rw [larger.eq_of_blank fun frame member => blank frame (mem_cons_of_mem _ member)]
    exact .inl blank
  · exact .inr ⟨distinct, none, fun name member => (secure name member).swells (.cons (.refl _ _) larger)⟩

theorem SafeSource.swells {a : Clauses} (safe : c.SafeSource targets s a) : c.SafeSource targets s' a := by
  refine ⟨safe.distinct, fun p member => (safe.conditions p member).swells larger, safe.derived.imp_right ?_⟩
  intro blank
  rwa [larger.eq_of_blank blank]

/-- A name that is secure in a SELECT stays secure once it is written with its relation, if that is around the SELECT. -/
theorem Secure.settles {frame : Frame} {name name' : Path} (secure : c.Secure targets (frame :: s) (frame :: s) name)
    (settles : s.Settles (Hides (some [frame]) []) name name') :
    c.Secure targets (frame :: s') (frame :: s') name' := by
  have inside : c.Swells targets (frame :: s) (frame :: s') := .cons (.refl _ _) larger
  -- A bare name that means a field of the frame itself is safe from what is joined around it.
  have own : ∀ (bare : Ident) f, Scope.resolve [bare.value] (frame :: s) = .ok (some f) →
      Scope.resolve [bare.value] [frame] ≠ .ok none → c.Secure targets (frame :: s') (frame :: s') [bare] := by
    intro bare f meaning known
    rw [Scope.resolve_cons_of_known known] at meaning
    exact .inr ⟨bare, f, rfl, (Scope.resolve_cons_of_known known s').trans meaning⟩
  cases settles with
  | dotted dotted =>
    rcases secure with steady | ⟨bare, _, rfl, _⟩
    · exact .inl (steady.swells inside)
    · simp at dotted
  | @hidden bare hidden =>
    rcases secure with steady | ⟨_, f, same, meaning⟩
    · exact .inl (steady.swells inside)
    · obtain ⟨_, ⟨⟩, known⟩ := hidden.resolve_left not_mem_nil
      cases same
      exact own bare f meaning known
  | @unknown bare unknown =>
    rcases secure with steady | ⟨_, f, same, meaning⟩
    · exact .inl (steady.swells inside)
    · cases same
      refine own bare f meaning fun none => ?_
      rw [Scope.resolve_cons_of_unknown none, unknown] at meaning
      cases meaning
  | qualified known =>
    exact .inl (.known (Nat.le_refl 2) (Scope.knows_cons.mpr (.inr (larger.grows.knows known))))

end Swelling

section Bodies

/-- A body in the place of another one, apart from the names in its SELECTs. -/
structure Reshapes (c : Context) (b b' : Body Query) : Prop where
  accepted : c.AcceptsBody b → c.AcceptsBody b'
  rows : b'.rowExprs = b.rowExprs
  single : b'.isSelect = b.isSelect
  alone : b'.isQuery = b.isQuery

/-- The names of a body obey a rule, and the queries in it have a property. -/
structure SafeBody (c : Context) (targets : List String) (rule : Scope → Scope → Path → Prop)
    (p : Scope → Query → Prop) (s : Scope) (orderBy : List (OrderItem Query)) (b : Body Query) : Prop where
  selects : ∀ a ∈ b.selects orderBy, c.SafeSelect targets rule s a ∧ c.Holding p s a
  operands : ∀ x ∈ b.operands, p s x

variable {rule rule' : Scope → Scope → Path → Prop}

/-- The body of a query whose names obey a rule. The queries in it are lower. -/
theorem Safe.body {q : Query} {n : Nat} (safe : c.Safe targets rule s q) (low : q.height ≤ n + 1) :
    c.SafeBody targets rule (fun s x => c.Safe targets rule s x ∧ x.height ≤ n) s q.orderBy q.body := by
  refine ⟨fun a member => ⟨safe.level.selects a member, fun x nested => ?_, fun x nested => ?_⟩, fun x member => ?_⟩
  · have lower := Query.height_lt_of_select member (.inl nested)
    exact ⟨(safe.holding member).nested x nested, by omega⟩
  · have lower := Query.height_lt_of_select member (.inr nested)
    exact ⟨(safe.holding member).source x nested, by omega⟩
  · have lower := Query.height_lt_of_operand member
    exact ⟨safe.operand member, by omega⟩

theorem Safe.with_body {q q' : Query} (safe : c.Safe targets rule s q) (larger : c.Swells targets s s')
    (reshapes : c.Reshapes q.body q'.body) (names : With.names q' = With.names q)
    (order : q.body.isSelect = false → q'.orderBy = q.orderBy)
    (body : c.SafeBody targets rule' (c.Safe targets rule') s' q'.orderBy q'.body)
    (entries : ∀ cte ∈ q'.ctes, c.Safe targets rule' s' cte.query) : c.Safe targets rule' s' q' := by
  have level := safe.level
  have loose : q'.looseOrder = q.looseOrder := by
    unfold Query.looseOrder
    rw [reshapes.single]
    split
    · rfl
    · rename_i several
      exact order (by simpa using several)
  refine .of_parts ⟨⟨reshapes.accepted level.accepted.1, names ▸ level.accepted.2⟩, ?_, ?_, fun alone => ?_,
    fun a member => (body.selects a member).1⟩ (fun a member => (body.selects a member).2) body.operands entries
  · refine level.entries.imp (fun none => ?_) fun blank => ?_
    · rw [With.names, With.names, none] at names
      exact map_eq_nil_iff.mp names
    · rwa [larger.eq_of_blank blank]
  · rw [reshapes.rows, loose]
    exact fun e member => ⟨(level.loose e member).1, fun name named => ((level.loose e member).2 name named).swells larger⟩
  · rw [reshapes.alone] at alone
    have several : q.body.isSelect = false := by
      cases same : q.body with
      | query => rfl
      | select | setOp | values | table | write =>
        rw [same] at alone
        cases alone
    rw [order several, level.alone alone]

end Bodies

section Qualifying

/-- A query is secure in every scope that swells. -/
def Lasts (c : Context) (targets : List String) (s : Scope) (q : Query) : Prop :=
  ∀ s', c.Swells targets s s' → c.Safe targets (c.Secure targets) s' q

abbrev Lasting (c : Context) (targets : List String) (s : Scope) (_ q' : Query) : Prop := c.Lasts targets s q'

variable {nested : Scope → Query → Except CompileError Query} {a : Clauses}

theorem qualifySelect_replaced (named : s.Named) (dotted : ∀ e ∈ a.exprs .written, ∀ name ∈ e.paths, name.Dotted)
    (visits : ∀ x ∈ a.queries .written, returns.holds (nested (c.frame a :: s) x) (c.Lasts targets (c.frame a :: s))) :
    returns.holds (c.qualifyBody nested s (.select a.select)) fun b => ∃ select, b = .select select ∧
      select.source = a.select.source ∧ a.Replaced (s.Settles (Hides (some [c.frame a]) [])) Eq
        (c.Lasting targets (c.frame a :: s)) Eq ⟨select, a.orderBy⟩ := by
  have resolved : ∀ (sel : Select Query) outer, sel.source = a.select.source →
      returns.holds (c.sourceScope sel outer) (· = c.frame a :: outer) := by
    intro sel outer same scope returned
    rw [sourceScope_eq returned, same]
    rfl
  rw [qualifyBody]
  refine returns_bind (resolved a.select [] rfl) fun nearer same => ?_
  subst same
  refine returns_bind (Clauses.walkSelect_lifts fun e member =>
    Expr.qualifyWalk_settles named (some [c.frame a]) [] (dotted e (mem_append_left _ member))) fun s₁ first => ?_
  obtain ⟨⟨source, _⟩, aliases, settled⟩ := first
  refine returns_bind (resolved s₁ s source) fun inner same => ?_
  subst same
  refine returns_bind (Clauses.walkSelect_nested (forall₂_exists (settled .written).flip) fun x member =>
    visits x (Clauses.mem_queries_of_select member)) fun s₂ second => returns.pure ?_
  obtain ⟨source', aliases', replaced⟩ := second
  refine ⟨s₂, rfl, source'.trans source, aliases'.trans aliases, replaced, fun item member => ?_⟩
  refine ⟨item, member, ⟨.refl (fun _ => rfl) (fun _ => rfl) item.expr, ?_⟩, fun _ bare _ => bare⟩
  exact dotted item.expr (mem_append_right _ (mem_map_of_mem member))

/-- A SELECT with its names qualified is secure in every scope that swells. -/
theorem SafeSelect.replaced (safe : c.SafeSelect targets (c.Secure targets) s a)
    (holding : c.Holding (c.Safe targets (c.Secure targets)) s a) {b : Clauses}
    (source : b.select.source = a.select.source) (order : b.orderBy = a.orderBy)
    (replaced : a.Replaced (s.Settles (Hides (some [c.frame a]) [])) Eq (c.Lasting targets (c.frame a :: s)) Eq b)
    (larger : c.Swells targets s s') :
    c.SafeSelect targets (c.Secure targets) s' b ∧ c.Holding (c.Safe targets (c.Secure targets)) s' b := by
  have frames : c.frame b = c.frame a := by
    rw [frame, frame, source]
  have inside : c.Swells targets (c.frame a :: s) (c.frame b :: s') := by
    rw [frames]
    exact .cons (.refl _ _) larger
  have names : c.SafeNames (c.Secure targets) s' b := by
    refine safe.toSafeNames.replaced replaced (fun name name' settles secure => ?_) fun name name' same secure => ?_
    · rw [frames]
      exact secure.settles larger settles
    · subst same
      have reach : c.orderReach b name = c.orderReach a name := by
        rw [orderReach, orderReach, frames, replaced.aliases]
      rw [reach]
      exact secure.swells inside
  have sources : c.SafeSource targets s' b := by
    have unchanged := safe.toSafeSource.swells larger
    refine ⟨frames ▸ unchanged.distinct, source ▸ unchanged.conditions, ?_⟩
    rw [Clauses.inner, source]
    exact unchanged.derived
  refine ⟨⟨names, sources, ?_⟩, fun x' member => ?_, fun x member => holding.source x ?_⟩
  · rw [order]
    refine safe.ordering.imp_right fun blank => ?_
    rwa [inside.eq_of_blank blank]
  · obtain ⟨x, found, lasts | ⟨ordered, rfl⟩⟩ := replaced.queries member
    · exact lasts _ inside
    · rcases safe.ordering with none | blank
      · rw [none] at ordered
        cases ordered
      · rw [inside.eq_of_blank blank]
        exact holding.nested x found
  · rwa [Clauses.inner, source] at member

variable {p : Scope → Query → Prop} (safe : ∀ s x, p s x → c.Safe targets (c.Secure targets) s x)
  (visits : ∀ s x, s.Named → p s x → returns.holds (nested s x) (c.Lasts targets s))

include safe visits

theorem qualifyBody_safe (named : s.Named) : ∀ (b : Body Query) (orderBy : List (OrderItem Query)),
    c.SafeBody targets (c.Secure targets) p s orderBy b →
    returns.holds (c.qualifyBody nested s b) fun b' => c.Reshapes b b' ∧ ∀ s', c.Swells targets s s' →
      c.SafeBody targets (c.Secure targets) (c.Safe targets (c.Secure targets)) s' orderBy b'
  | .select sel, orderBy, body => by
    obtain ⟨select, holding⟩ := body.selects ⟨sel, orderBy⟩ (mem_singleton_self _)
    have inside : Scope.Named (c.frame ⟨sel, orderBy⟩ :: s) := named_cons named sel.source
    refine returns.mono (qualifySelect_replaced (a := ⟨sel, orderBy⟩) named select.dotted fun x member =>
      visits _ x inside (holding.nested x member)) ?_
    rintro _ ⟨sel', rfl, source, replaced⟩
    refine ⟨⟨fun accepted => ?_, rfl, rfl, rfl⟩, fun s' larger => ⟨fun a member => ?_, forall_mem_nil _⟩⟩
    · rw [AcceptsBody] at accepted ⊢
      rwa [source]
    · cases mem_singleton.mp member
      exact select.replaced ⟨fun x member => safe _ x (holding.nested x member),
        fun x member => safe _ x (holding.source x member)⟩ source rfl replaced larger
  | .query x, orderBy, body => by
    rw [qualifyBody]
    refine returns_bind (visits s x named (body.operands x (mem_singleton_self x))) fun x' lasts =>
      returns.pure ⟨⟨id, rfl, rfl, rfl⟩, fun s' larger => ⟨forall_mem_nil _, ?_⟩⟩
    exact forall_mem_singleton.mpr (lasts s' larger)
  | .setOp word left right, orderBy, body => by
    obtain ⟨selects, operands⟩ := body
    obtain ⟨leftSelects, rightSelects⟩ := forall_mem_append.mp selects
    obtain ⟨leftOperands, rightOperands⟩ := forall_mem_append.mp operands
    rw [qualifyBody]
    refine returns_bind (qualifyBody_safe named left [] ⟨leftSelects, leftOperands⟩) fun left' first =>
      returns_bind (qualifyBody_safe named right [] ⟨rightSelects, rightOperands⟩) fun right' second =>
      returns.pure ⟨⟨?_, ?_, rfl, rfl⟩, fun s' larger => ⟨?_, ?_⟩⟩
    · exact fun accepted => ⟨first.1.accepted accepted.1, second.1.accepted accepted.2⟩
    · rw [Body.rowExprs, Body.rowExprs, first.1.rows, second.1.rows]
    · exact forall_mem_append.mpr ⟨(first.2 s' larger).selects, (second.2 s' larger).selects⟩
    · exact forall_mem_append.mpr ⟨(first.2 s' larger).operands, (second.2 s' larger).operands⟩
  | .values _ _, _, _ | .table _, _, _ | .write _, _, _ =>
    returns.pure ⟨⟨id, rfl, rfl, rfl⟩, fun _ _ => ⟨forall_mem_nil _, forall_mem_nil _⟩⟩

omit safe visits in
/-- A query whose names are secure and have been qualified is secure in every scope that swells. -/
theorem qualifyCorrelatedUpTo_safe : ∀ (n : Nat) (s : Scope) (q : Query), s.Named → q.height ≤ n →
    c.Safe targets (c.Secure targets) s q → returns.holds (c.qualifyCorrelatedUpTo n s q) (c.Lasts targets s)
  | 0, _, q, _, low, _ => absurd q.height_pos (by omega)
  | n + 1, s, q, named, low, safe => by
    rw [qualifyCorrelatedUpTo]
    refine returns_bind (qualifyBody_safe (fun _ _ inside => inside.1) (fun s x named inside =>
      qualifyCorrelatedUpTo_safe n s x named inside.2 inside.1) named q.body q.orderBy (safe.body low)) fun b' parts =>
      returns.pure fun s' larger => ?_
    refine safe.with_body larger parts.1 rfl (fun _ => rfl) (parts.2 s' larger) fun cte member => ?_
    -- Entries stand where names mean nothing.
    rcases safe.level.entries with none | blank
    · rw [none] at member
      cases member
    · rw [larger.eq_of_blank blank]
      exact safe.entry member

end Qualifying

end Context

end SemanticLayer
