import SemanticLayer.Proofs.Polishing
import SemanticLayer.Proofs.Swelling

/-! # Joining where names are guarded

A name that asks for a join becomes a column of the joined model, and all other names stay or are qualified before the
model is joined. So joining turns a query whose names are guarded into one whose names are secure.
-/

namespace SemanticLayer

open Sql List
open Judgement (always_lift returns returns_bind recording_lift)

namespace Clauses

variable {m : Type → Type} [Monad m] [LawfulMonad m] {J : Judgement m} {w : Expr.Walk m Query Query}
  {renamed : Path → Path → Prop} {related : Query → Query → Prop} {a b : Clauses}

theorem walk_replaced (bare : ∀ name, J.holds (w.ident name) (· = .ident name))
    (each : ∀ e ∈ a.exprs .written, J.holds (e.walk w) (e.Rewritten Path.Dotted renamed related)) :
    J.holds (a.walk w) fun b => b.select.source = a.select.source ∧ a.Replaced renamed renamed related related b := by
  let R (e e' : Expr Query) : Prop :=
    e.Rewritten Path.Dotted renamed related e' ∧ ∀ name, e = .ident name → e' = .ident name
  have stays : ∀ e ∈ a.exprs .written, J.holds (e.walk w) (R e) := by
    intro e member
    refine J.and (each e member) ?_
    cases e with
    | ident label =>
      rw [Expr.walk]
      refine J.mono (bare label) fun e' same name isLabel => ?_
      cases isLabel
      exact same
    | path | literal | binary | nested | call | form | query =>
      exact J.mono (each _ member) fun _ _ _ same => nomatch same
  have keys : ∀ item ∈ a.orderBy, item.expr ∈ a.exprs .written := fun item member =>
    mem_append_right _ (mem_map_of_mem member)
  unfold walk
  refine J.bind (walkSelect_lifts fun e member => each e (mem_append_left _ member)) fun select =>
    J.bind (walkOrder_lifts (R := R) fun item member => stays item.expr (keys item member)) fun orderBy => J.pure ?_
  rintro ordered ⟨⟨source, _⟩, aliases, clauses⟩
  refine ⟨source, aliases, forall₂_exists (clauses .written).flip, fun item' member => ?_⟩
  obtain ⟨item, listed, rewritten, kept⟩ := forall₂_exists ordered.flip item' member
  exact ⟨item, listed, rewritten, fun name same _ => kept name same⟩

variable {order : Path → Path → Prop} {relatedInOrder : Query → Query → Prop}

theorem Replaced.order_nil (replaced : a.Replaced renamed order related relatedInOrder b) (none : a.orderBy = []) :
    b.orderBy = [] := by
  refine eq_nil_iff_forall_not_mem.mpr fun item' member => ?_
  obtain ⟨item, listed, _⟩ := replaced.ordering item' member
  rw [none] at listed
  cases listed

theorem Replaced.orderQueries_nil (replaced : a.Replaced renamed order related relatedInOrder b)
    (none : orderQueries a.orderBy = []) : orderQueries b.orderBy = [] := by
  refine flatMap_eq_nil_iff.mpr fun item' member => ?_
  obtain ⟨item, listed, rewritten, _⟩ := replaced.ordering item' member
  have pairs := rewritten.queries
  rw [flatMap_eq_nil_iff.mp none item listed] at pairs
  exact forall₂_nil_left_iff.mp pairs

end Clauses

namespace Context

variable {c : Context} {targets : List String} {s : Scope} {name name' : Path} {reach : Scope} {f : Field}
  {rest : DottedName}

section Dereferencing

variable {a : Clauses}

/-- Of guarded names only those go through a relationship that ask for a join. -/
theorem Guarded.asks (guarded : c.Guarded targets reach s name) (near : reach <+: s) (distinct : s.Distinct)
    (goes : s.reference name.values = .ok (.through f rest)) : c.Asks targets s name :=
  guarded.resolve_left fun secure => (secure.clear near distinct).2 f rest goes

theorem Guarded.dereferenced (guarded : c.Guarded targets reach s name) (near : reach <+: s)
    (distinct : s.Distinct) (becomes : Dereferences c.layer s name name') :
    name' = name ∧ c.Secure targets reach s name ∨ c.Steady targets s name' := by
  cases becomes with
  | kept direct =>
    refine .inl ⟨rfl, guarded.resolve_right ?_⟩
    rintro ⟨f, column, j, goes, _⟩
    exact direct f [column] goes
  | @joined f column j goes found =>
    refine .inr (Plain.steady ?_)
    obtain ⟨f', column', j', goes', found', fits⟩ := guarded.asks near distinct goes
    cases goes.symm.trans goes'
    cases found.symm.trans found'
    intro word member
    have lead : word = j.label := by simpa [DottedName.leads, Path.values] using member
    rw [lead]
    exact fits.free

theorem dereference_fits (dotted : name.Dotted)
    (asks : ∀ f rest, s.reference name.values = .ok (.through f rest) → c.Asks targets s name) :
    (returns.keeping fun joins => ∀ j ∈ joins, c.Fits targets s j).holds (dereference c.layer s name)
      ((Expr.path name).Rewritten Path.Dotted (Dereferences c.layer s) Eq) := by
  rintro joins ⟨e, joins'⟩ run kept
  rcases dereference_eq_ok run with ⟨direct, rfl, rfl⟩ | ⟨f, column, j, m, goes, found, _, rfl, rfl⟩
  · exact ⟨kept, ⟨.cons (.kept direct) .nil, .nil⟩, forall_mem_singleton.mpr dotted⟩
  · refine ⟨?_, ⟨.cons (.joined goes found) .nil, .nil⟩, forall_mem_singleton.mpr (Nat.le_refl 2)⟩
    obtain ⟨f', column', j', goes', found', fits⟩ := asks f [column] goes
    cases goes.symm.trans goes'
    cases found.symm.trans found'
    rcases j.note_cases joins with ⟨old, _⟩ | new
    · rwa [old]
    · rw [new]
      exact forall_mem_append.mpr ⟨kept, forall_mem_singleton.mpr fits⟩

theorem dereferences_replaced (dotted : ∀ e ∈ a.exprs .written, ∀ name ∈ e.paths, name.Dotted)
    (asks : ∀ e ∈ a.exprs .written, ∀ name ∈ e.paths, ∀ f rest,
      s.reference name.values = .ok (.through f rest) → c.Asks targets s name) :
    returns.holds (dereferences c.layer a s) fun r => r.1.select.source = a.select.source ∧
      a.Replaced (Dereferences c.layer s) (Dereferences c.layer s) Eq Eq r.1 ∧ ∀ j ∈ r.2, c.Fits targets s j := by
  let J : Judgement (StateT (List RelatedJoin) (Except CompileError)) :=
    returns.keeping fun joins => ∀ j ∈ joins, c.Fits targets s j
  have walked : J.holds (a.walk { Expr.Walk.keep _ _ with path := dereference c.layer s }) fun b =>
      b.select.source = a.select.source ∧ a.Replaced (Dereferences c.layer s) (Dereferences c.layer s) Eq Eq b := by
    refine Clauses.walk_replaced (fun name => J.pure rfl) fun e member => Expr.walk_lifts Expr.Rewritten.congruence (fun name => J.pure ?_) e
      (fun name found => dereference_fits (dotted e member name found) (asks e member name found)) fun q _ => J.pure rfl
    exact ⟨⟨.cons (.kept (s.bare_not_through name)) .nil, .nil⟩, forall_mem_nil _⟩
  intro r returned
  obtain ⟨fit, source, replaced⟩ := walked [] r returned (forall_mem_nil _)
  exact ⟨source, replaced, fit⟩

theorem SafeNames.dereferenced {b : Clauses} (names : c.SafeNames (c.Guarded targets) s a)
    (distinct : Scope.Distinct (c.frame a :: s)) (frames : c.frame b = c.frame a) {related : Query → Query → Prop}
    (replaced : a.Replaced (Dereferences c.layer (c.frame a :: s)) (Dereferences c.layer (c.frame a :: s))
      related related b) : c.SafeNames (c.Secure targets) s b := by
  refine names.replaced replaced (fun name name' becomes guarded => ?_) fun name name' becomes guarded => ?_
  · rw [frames]
    rcases guarded.dereferenced (prefix_refl _) distinct becomes with ⟨rfl, secure⟩ | steady
    · exact secure
    · exact .inl steady
  · rw [frames]
    rcases guarded.dereferenced (orderReach_near a name s) distinct becomes with ⟨rfl, secure⟩ | steady
    · have reach : c.orderReach b name' = c.orderReach a name' := by
        rw [orderReach, orderReach, frames, replaced.aliases]
      rwa [reach]
    · exact .inl steady

end Dereferencing

section Qualifying

/-- A name that is secure is steady once it has been qualified in its own scope. -/
theorem Secure.settled {hidden : Ident → Prop} (secure : c.Secure targets reach s name)
    (near : reach <+: s) (settles : s.Settles hidden name name')
    (outer : ∀ bare : Ident, hidden bare → name = [bare] → reach = []) : c.Steady targets s name' := by
  cases settles with
  | dotted dotted =>
    rcases secure with steady | ⟨bare, _, rfl, _⟩
    · exact steady
    · simp at dotted
  | @hidden bare hidden =>
    rcases secure with steady | ⟨_, f, same, meaning⟩
    · exact steady
    · rw [outer bare hidden rfl] at meaning
      cases meaning
  | unknown unknown =>
    rcases secure with steady | ⟨_, f, same, meaning⟩
    · exact steady
    · cases same
      obtain ⟨rest, rfl⟩ := near
      cases unknown.symm.trans (Scope.resolve_append meaning rest)
  | qualified known => exact .known (Nat.le_refl 2) known

theorem aliasNames_spreadWildcard (relations : List String) : ∀ items : List (SelectItem Query),
    aliasNames (spreadWildcard relations items) = aliasNames items
  | [] => rfl
  | .wildcard options :: rest => by
    have none : aliasNames (relations.map fun name => .qualifiedWildcard [.ofName name] options) = [] := by
      rw [aliasNames, filterMap_map]
      exact filterMap_eq_nil_iff.mpr fun _ _ => rfl
    rw [spreadWildcard, aliasNames, filterMap_append, ← aliasNames, none]
    rfl
  | .qualifiedWildcard _ _ :: rest | .expr _ :: rest | .aliased _ _ :: rest => by
    have same := aliasNames_spreadWildcard relations rest
    simp only [spreadWildcard, aliasNames, filterMap_cons] at same ⊢
    rw [same]

theorem qualify_replaced {a : Clauses} (named : s.Named)
    (dotted : ∀ e ∈ a.exprs .written, ∀ name ∈ e.paths, name.Dotted)
    (visits : ∀ x ∈ a.queries .written, returns.holds (c.qualifyCorrelated s x) (c.Lasts targets s)) :
    returns.holds (c.qualify s a) fun b => b.select.source = a.select.source ∧
      a.Replaced (s.Settles (Hides none [])) (s.Settles (Hides none (aliasNames a.select.items)))
        (c.Lasting targets s) Eq b := by
  let R (e e' : Expr Query) : Prop :=
    e.Rewritten Path.Dotted (s.Settles (Hides none (aliasNames a.select.items))) Eq e' ∧
      ∀ name, e = .ident name → name.value ∈ aliasNames a.select.items → e' = .ident name
  have order : ∀ item ∈ a.orderBy, returns.holds
      (item.expr.walk (qualifyWalk s none (aliasNames a.select.items))) (R item.expr) := by
    intro item member
    refine returns.and (Expr.qualifyWalk_settles named none _ ?_) ?_
    · exact dotted item.expr (mem_append_right _ (mem_map_of_mem member))
    · intro e' returned name bare hidden
      rw [bare, Expr.walk] at returned
      refine (Except.ok.inj (Eq.trans ?_ returned)).symm
      exact (if_pos (by simpa using hidden)).symm
  unfold qualify
  refine returns_bind (Clauses.walkSelect_lifts fun e member =>
    Expr.qualifyWalk_settles named none [] (dotted e (mem_append_left _ member))) fun s₁ first =>
    returns_bind (Clauses.walkOrder_lifts order) fun orderBy ordered => ?_
  obtain ⟨⟨source, _⟩, aliases, settled⟩ := first
  refine returns_bind (Clauses.walkSelect_nested (forall₂_exists (settled .written).flip) fun x member =>
    visits x (Clauses.mem_queries_of_select member)) fun s₂ second => returns.pure ?_
  obtain ⟨source', aliases', clauses⟩ := second
  refine ⟨source'.trans source, (aliasNames_spreadWildcard _ _).trans (aliases'.trans aliases), fun e' member => ?_, ?_⟩
  · refine clauses e' ?_
    have back := (spreadWildcard_exprs (s₂.source.flatMap relationNames) s₂.items).2 e'
    simp only [Select.exprs, mem_append] at member ⊢
    exact member.imp_left (Or.imp_left (Or.imp_left (Or.imp_left back)))
  · intro item' member
    obtain ⟨item, listed, rewritten, stays⟩ := forall₂_exists ordered.flip item' member
    exact ⟨item, listed, rewritten, stays⟩

end Qualifying

/-- A SELECT whose own names obey a rule. The names in its queries are secure. -/
structure SafeClauses (c : Context) (targets : List String) (rule : Scope → Scope → Path → Prop) (s : Scope)
    (a : Clauses) : Prop where
  select : c.SafeSelect targets rule s a
  holding : c.Holding (c.Safe targets (c.Secure targets)) s a
  accepted : c.AcceptsSource a.select.source

section Owning

variable {a b d : Clauses}

theorem SafeClauses.add (safe : c.SafeClauses targets (c.Secure targets) s b) (nonempty : (c.frame b).fields ≠ [])
    (replaced : b.Replaced (Scope.Settles (c.frame b :: s) (Hides none []))
      (Scope.Settles (c.frame b :: s) (Hides none (aliasNames b.select.items))) (c.Lasting targets (c.frame b :: s)) Eq d)
    (swollen : c.Swollen targets s b.select.source d.select.source) : c.SafeClauses targets (c.Secure targets) s d := by
  have larger : c.Swells targets (c.frame b :: s) (c.frame d :: s) := .cons swollen.swells (Scope.Swells.refl _ s)
  have unordered : orderQueries b.orderBy = [] :=
    safe.select.ordering.resolve_right fun blank => nonempty (blank _ mem_cons_self)
  have names : c.SafeNames (c.Secure targets) s d := by
    refine safe.select.toSafeNames.replaced replaced (fun name name' settles secure => .inl ?_)
      fun name name' settles secure => .inl ?_
    · refine (secure.settled (prefix_refl _) settles fun bare hidden _ => ?_).swells larger
      rcases hidden with output | ⟨_, ⟨⟩, _⟩
      cases output
    · refine (secure.settled (orderReach_near b name s) settles fun bare hidden single => ?_).swells larger
      rcases hidden with output | ⟨_, ⟨⟩, _⟩
      rw [single]
      exact if_pos output
  refine ⟨⟨names, ⟨swollen.distinct, swollen.conditions, ?_⟩, .inl (replaced.orderQueries_nil unordered)⟩,
    ⟨fun x' member => ?_, fun x member => safe.holding.source x ?_⟩, swollen.accepted safe.accepted⟩
  · rw [Clauses.inner, swollen.inner]
    exact safe.select.derived
  · obtain ⟨x, _, lasts | ⟨ordered, _⟩⟩ := replaced.queries member
    · exact lasts _ larger
    · rw [unordered] at ordered
      cases ordered
  · rwa [Clauses.inner, swollen.inner] at member

theorem joinOwned_safe (scope : Scope) (joins : List RelatedJoin) (b : Clauses) :
    (joining (· ∈ targets)).holds (c.joinOwned scope joins b) fun d => scope = c.frame b :: s →
      s.Named → c.SafeClauses targets (c.Secure targets) s b → (∀ j ∈ joins, c.Fits targets (c.frame b :: s) j) →
      (∀ j ∈ joins, ∃ f ∈ (c.frame b).fields, f.qualifier = j.owner) →
      c.SafeClauses targets (c.Secure targets) s d ∧ (b.orderBy = [] → d.orderBy = []) := by
  unfold joinOwned
  refine Judgement.cond _ (fun _ => Judgement.pure _ fun _ _ safe _ _ => ⟨safe, id⟩) fun several => ?_
  refine Judgement.bind _ recording_lift fun d => Judgement.bind _ (targets_noted joins) fun _ =>
    Judgement.pure _ fun joined returned same named safe fit owners => ?_
  subst same
  have nonempty : (c.frame b).fields ≠ [] := by
    cases joins with
    | nil => exact absurd rfl several
    | cons j joins =>
      obtain ⟨f, member, _⟩ := owners j mem_cons_self
      exact ne_nil_of_mem member
  have inside : Scope.Named (c.frame b :: s) := named_cons named b.select.source
  have lasting : ∀ x ∈ b.queries .written, returns.holds (c.qualifyCorrelated (c.frame b :: s) x)
      (c.Lasts targets (c.frame b :: s)) := fun x member =>
    qualifyCorrelatedUpTo_safe x.height _ x inside (Nat.le_refl _) (safe.holding.nested x member)
  obtain ⟨source, replaced⟩ := qualify_replaced inside safe.select.dotted lasting d returned
  have swollen : c.Swollen targets s b.select.source (joins.foldl (fun sel j => j.addTo sel) d.select).source := by
    refine Swollen.addAll nonempty ?_ fun j member => ⟨fit j member, joined j member⟩
    rw [source]
    exact .refl safe.select.distinct safe.select.conditions
  rw [foldl_addTo_eq_place] at swollen ⊢
  exact ⟨safe.add nonempty ⟨replaced.aliases, replaced.clauses, replaced.ordering⟩ swollen, replaced.order_nil⟩

end Owning

theorem Fits.outer {frame : Frame} {j : RelatedJoin} (fits : c.Fits targets (frame :: s) j) : c.Fits targets s j := by
  have fewer : ∀ {word : String}, Scope.Lacks (frame :: s) word → s.Lacks word :=
    fun lacks => (forall_mem_cons.mp lacks).2
  exact ⟨⟨fewer fits.free.1, fits.free.2⟩, (forall_mem_cons.mp fits.fresh).2, fits.distinct,
    fun name member word found => (fits.names name member word found).imp_left fewer, fits.queries⟩

section Joining

variable {a b : Clauses} {related : Query → Query → Prop}

/-- What joining makes of a query: a query whose names are secure, and joins that fit around it. -/
structure Guards (c : Context) (targets : List String) (s : Scope) (r : Query × List RelatedJoin) : Prop where
  safe : c.Safe targets (c.Secure targets) s r.1
  fits : ∀ j ∈ r.2, c.Fits targets s j

variable {nested : Scope → Query → Joiner (Query × List RelatedJoin)} {p : Scope → Query → Prop}
  (visits : ∀ s x, (joining (· ∈ targets)).holds (nested s x) fun r =>
    s.Named → s.Distinct → p s x → c.Guards targets s r)

/-- A query in a FROM clause becomes one whose names are secure. -/
abbrev Secures (c : Context) (targets : List String) (p : Scope → Query → Prop) (x x' : Query) : Prop :=
  p [] x → c.Safe targets (c.Secure targets) [] x'

include visits

theorem joinSource_guarded (source : List (FromItem Query)) :
    (joining (· ∈ targets)).holds (joinSource nested source) fun source' =>
      (∀ reach, c.Walked reach (c.Secures targets p) (fun _ => False) source source') ∧
      Forall₂ (Seen (c.Secures targets p)) (c.sourceExprs source) (c.sourceExprs source') := by
  let J := joining (· ∈ targets)
  have renames : Expr.Walk.Renames J
      { Expr.Walk.keep Joiner Query with query := fun q => do return (← nested [] q).1 } Eq (c.Secures targets p) := by
    refine (Expr.Walk.keep_keeps fun q => ?_).renames
    exact J.bind (visits [] q) fun r => J.pure fun guards inside => (guards nil_named .nil inside).safe
  have walked : ∀ reach, J.holds (joinSource nested source)
      (c.Walked reach (c.Secures targets p) (fun _ => False) source) :=
    fun reach => walk_source renames (fun r => J.pure (.refl reach _ r)) source
  refine J.mono (J.and (J.and (walked .visited) (walked .written)) (walk_sourceExprs (c := c) renames source)) ?_
  rintro source' ⟨⟨visited, written⟩, seen⟩
  refine ⟨fun reach => ?_, seen⟩
  cases reach with
  | visited => exact visited
  | written => exact written

theorem joinNested_replaced (named : s.Named) (distinct : s.Distinct)
    (dotted : ∀ e ∈ a.exprs .written, ∀ name ∈ e.paths, name.Dotted) (inside : ∀ x ∈ a.queries .written, p s x) :
    (joining (· ∈ targets)).holds (joinNested nested s a) fun r => r.1.select.source = a.select.source ∧
      a.Replaced Eq Eq (fun _ x' => c.Safe targets (c.Secure targets) s x')
        (fun _ x' => c.Safe targets (c.Secure targets) s x') r.1 ∧ ∀ j ∈ r.2, c.Fits targets s j := by
  let J : Judgement (StateT (List RelatedJoin) Joiner) :=
    (joining (· ∈ targets)).keeping fun joins => ∀ j ∈ joins, c.Fits targets s j
  have walked : J.holds (a.walk (nestedWalk nested s)) fun b => b.select.source = a.select.source ∧
      a.Replaced Eq Eq (fun _ x' => c.Safe targets (c.Secure targets) s x')
        (fun _ x' => c.Safe targets (c.Secure targets) s x') b := by
    refine Clauses.walk_replaced (fun name => J.pure rfl) fun e member =>
      Expr.walk_nested (dotted e member) fun x found => ?_
    refine Judgement.keeping_lift_bind (visits s x) fun r joins => Judgement.pure _ fun guards kept => ?_
    have guards := guards named distinct (inside x (mem_flatMap.mpr ⟨e, member, found⟩))
    exact ⟨forall_mem_append.mpr ⟨kept, guards.fits⟩, guards.safe⟩
  unfold joinNested
  refine Judgement.mono _ (walked []) fun r parts => ?_
  obtain ⟨fits, source, replaced⟩ := parts (forall_mem_nil _)
  exact ⟨source, replaced, fits⟩

omit visits in
theorem SafeSource.walked (safe : c.SafeSource targets s a)
    (walked : c.Walked .visited related (fun _ => False) a.select.source b.select.source)
    (seen : Forall₂ (Seen related) (c.sourceExprs a.select.source) (c.sourceExprs b.select.source)) :
    c.SafeSource targets s b := by
  refine ⟨?_, fun p' member => ?_, safe.derived.imp_left fun none => ?_⟩
  · rw [frame, walked.fields]
    exact safe.distinct
  · obtain ⟨p, listed, same⟩ := forall₂_exists seen.flip p' member
    exact (safe.conditions p listed).seen same
  · refine eq_nil_iff_forall_not_mem.mpr fun x' member => ?_
    obtain ⟨x, listed, _⟩ := (walked.inner.back x' member).resolve_right id
    change x ∈ a.inner .visited at listed
    rw [none] at listed
    cases listed

omit visits in
theorem SafeNames.asks (names : c.SafeNames (c.Guarded targets) s a) (distinct : Scope.Distinct (c.frame a :: s))
    {e : Expr Query} (member : e ∈ a.exprs .written) (dotted : name ∈ e.paths)
    (goes : Scope.reference (c.frame a :: s) name.values = .ok (.through f rest)) :
    c.Asks targets (c.frame a :: s) name := by
  rcases mem_append.mp member with clause | order
  · have guarded := names.clause e clause name (Expr.paths_subset_names e name dotted)
    exact guarded.asks (prefix_refl _) distinct goes
  · obtain ⟨item, listed, rfl⟩ := mem_map.mp order
    rcases names.order item listed with ⟨label, bare, _⟩ | guarded
    · rw [bare] at dotted
      cases dotted
    · have guarded := guarded name (Expr.paths_subset_names _ name dotted)
      exact guarded.asks (orderReach_near a name s) distinct goes

omit visits in
theorem SafeNames.kept {rule : Scope → Scope → Path → Prop} (names : c.SafeNames rule s a)
    (frames : c.frame b = c.frame a) (replaced : a.Replaced Eq Eq related related b) : c.SafeNames rule s b := by
  refine names.replaced replaced ?_ ?_
  · rintro name _ rfl obeys
    rwa [frames]
  · rintro name _ rfl obeys
    have reach : c.orderReach b name = c.orderReach a name := by
      rw [orderReach, orderReach, frames, replaced.aliases]
    rwa [reach, frames]

omit visits in
theorem SafeSelect.joinedWithin (select : c.SafeSelect targets (c.Guarded targets) s a)
    (holding : ∀ x ∈ a.inner .written, p [] x) (accepted : c.AcceptsSource b.select.source)
    (walked : ∀ reach, c.Walked reach (c.Secures targets p) (fun _ => False) a.select.source b.select.source)
    (seen : Forall₂ (Seen (c.Secures targets p)) (c.sourceExprs a.select.source) (c.sourceExprs b.select.source))
    (replaced : a.Replaced Eq Eq (fun _ x' => c.Safe targets (c.Secure targets) (c.frame a :: s) x')
      (fun _ x' => c.Safe targets (c.Secure targets) (c.frame a :: s) x') b) :
    c.SafeClauses targets (c.Guarded targets) s b := by
  have frames : c.frame b = c.frame a := by
    rw [frame, frame, (walked .visited).fields]
  refine ⟨⟨select.toSafeNames.kept frames replaced, select.toSafeSource.walked (walked .visited) seen, ?_⟩,
    ⟨fun x' member => ?_, fun x' member => ?_⟩, accepted⟩
  · rw [frames]
    exact select.ordering.imp_left replaced.orderQueries_nil
  · rw [frames]
    obtain ⟨x, _, safe | ⟨_, safe⟩⟩ := replaced.queries member
    · exact safe
    · exact safe
  · obtain ⟨x, listed, secures⟩ := ((walked .written).inner.back x' member).resolve_right id
    exact secures (holding x listed)

omit visits in
/-- Finding the joins that a SELECT asks for makes its names secure. -/
theorem SafeClauses.find {joins : List RelatedJoin} (safe : c.SafeClauses targets (c.Guarded targets) s a)
    (distinct : s.Distinct) (found : dereferences c.layer a (c.frame a :: s) = .ok (b, joins)) :
    c.SafeClauses targets (c.Secure targets) s b ∧ c.frame b = c.frame a ∧ (a.orderBy = [] → b.orderBy = []) ∧
      ∀ j ∈ joins, c.Fits targets (c.frame a :: s) j := by
  have names := safe.select.toSafeNames
  have inside : Scope.Distinct (c.frame a :: s) := .cons safe.select.distinct distinct
  obtain ⟨source, replaced, fit⟩ := dereferences_replaced names.dotted
    (fun e member name dotted f rest goes => names.asks inside member dotted goes) (b, joins) found
  have frames : c.frame b = c.frame a := by
    rw [frame, frame, source]
  have same : ∀ reach, b.inner reach = a.inner reach := fun reach => by
    rw [Clauses.inner, source, Clauses.inner]
  have sources : c.SafeSource targets s b := by
    refine ⟨frames ▸ safe.select.distinct, source ▸ safe.select.conditions, ?_⟩
    rw [same]
    exact safe.select.derived
  refine ⟨⟨⟨names.dereferenced inside frames replaced, sources, ?_⟩, ⟨fun x' member => ?_, ?_⟩, source ▸ safe.accepted⟩,
    frames, replaced.order_nil, fit⟩
  · rw [frames]
    exact safe.select.ordering.imp_left replaced.orderQueries_nil
  · rw [frames]
    obtain ⟨x, before, rfl | ⟨_, rfl⟩⟩ := replaced.queries member
    · exact safe.holding.nested x before
    · exact safe.holding.nested x before
  · rw [same]
    exact safe.holding.source

theorem joinClauses_guarded (named : s.Named) (distinct : s.Distinct)
    (select : c.SafeSelect targets (c.Guarded targets) s a) (holding : c.Holding p s a) :
    (joining (· ∈ targets)).holds (c.joinClauses (dereferences c.layer) nested s a) fun r =>
      c.SafeClauses targets (c.Secure targets) s r.1 ∧ (a.orderBy = [] → r.1.orderBy = []) ∧
        ∀ j ∈ r.2, c.Fits targets s j := by
  let J := joining (· ∈ targets)
  have inside : Scope.Named (c.frame a :: s) := named_cons named a.select.source
  unfold joinClauses
  simp only [partition_eq_filter_filter]
  refine Judgement.Records.bind (joinSource_alone c (fun _ _ _ _ _ => trivial) a.select.source)
    (joinSource_guarded visits a.select.source)
    fun source alone => Judgement.Records.bind always_lift recording_lift fun scope scoping => ?_
  obtain rfl : scope = c.frame a :: s := by
    rw [sourceScope_eq scoping, frame, alone.fields]
  refine J.bind (joinNested_replaced visits inside (.cons select.distinct distinct) select.dotted holding.nested)
    fun asked => J.bind recording_lift fun found => J.bind (joinOwned_safe (s := s) _ _ found.1) fun last =>
    J.pure ?_
  rintro own returned ⟨askedSource, replaced, askedFit⟩ _ ⟨walked, seen⟩
  obtain rfl : asked.1.select.source = source := askedSource
  have halfway : c.SafeClauses targets (c.Guarded targets) s asked.1 :=
    select.joinedWithin holding.source (accepts_of_sourceScope scoping).1 walked seen
      ⟨replaced.aliases, replaced.clauses, replaced.ordering⟩
  have askedFrame : c.frame asked.1 = c.frame a := by
    rw [frame, frame, alone.fields]
  rw [← askedFrame] at returned own askedFit
  obtain ⟨safe, frames, unordered, foundFit⟩ := halfway.find distinct returned
  have fit : ∀ j ∈ asked.2 ++ found.2, c.Fits targets (c.frame asked.1 :: s) j :=
    forall_mem_append.mpr ⟨askedFit, foundFit⟩
  have owners : ∀ j ∈ (asked.2 ++ found.2).filter fun j =>
      Scope.fields (c.frame asked.1 :: s) |>.any fun f => f.qualifier == j.owner,
      ∃ f ∈ (c.frame found.1).fields, f.qualifier = j.owner := by
    intro j member
    obtain ⟨f, inFrame, owns⟩ := any_eq_true.mp (mem_filter.mp member).2
    exact ⟨f, frames ▸ inFrame, beq_iff_eq.mp owns⟩
  obtain ⟨joined, unordered'⟩ := own (frames ▸ rfl) named safe
    (fun j member => frames ▸ fit j (mem_of_mem_filter member)) owners
  refine ⟨joined, fun none => unordered' (unordered (Clauses.Replaced.order_nil replaced none)), fun j member => ?_⟩
  exact (fit j (mem_of_mem_filter member)).outer

theorem joinBody_guarded (named : s.Named) (distinct : s.Distinct) :
    ∀ (b : Body Query) (orderBy : List (OrderItem Query)), c.SafeBody targets (c.Guarded targets) p s orderBy b →
    (joining (· ∈ targets)).holds (c.joinBody (dereferences c.layer) nested s orderBy b) fun r =>
      c.Reshapes b r.1 ∧ (b.isSelect = false ∨ orderBy = [] → r.2.1 = orderBy) ∧
        c.SafeBody targets (c.Secure targets) (c.Safe targets (c.Secure targets)) s r.2.1 r.1 ∧
        ∀ j ∈ r.2.2, c.Fits targets s j
  | .select sel, orderBy, body => by
    obtain ⟨select, holding⟩ := body.selects ⟨sel, orderBy⟩ (mem_singleton_self _)
    rw [joinBody]
    refine Judgement.bind _ (joinClauses_guarded visits named distinct select holding) fun r => Judgement.pure _ ?_
    rintro ⟨safe, unordered, fit⟩
    refine ⟨⟨fun _ => safe.accepted, rfl, rfl, rfl⟩, ?_, ⟨fun a member => ?_, forall_mem_nil _⟩, fit⟩
    · rintro (⟨⟨⟩⟩ | rfl)
      exact unordered rfl
    · cases mem_singleton.mp member
      exact ⟨safe.select, safe.holding⟩
  | .query x, orderBy, body => by
    rw [joinBody]
    refine Judgement.bind _ (visits s x) fun r => Judgement.pure _ fun guards => ?_
    have guards := guards named distinct (body.operands x (mem_singleton_self x))
    exact ⟨⟨id, rfl, rfl, rfl⟩, fun _ => rfl, ⟨forall_mem_nil _, forall_mem_singleton.mpr guards.safe⟩, guards.fits⟩
  | .setOp word left right, orderBy, body => by
    obtain ⟨selects, operands⟩ := body
    obtain ⟨leftSelects, rightSelects⟩ := forall_mem_append.mp selects
    obtain ⟨leftOperands, rightOperands⟩ := forall_mem_append.mp operands
    rw [joinBody]
    refine Judgement.bind _ (joinBody_guarded named distinct left [] ⟨leftSelects, leftOperands⟩) fun first =>
      Judgement.bind _ (joinBody_guarded named distinct right [] ⟨rightSelects, rightOperands⟩) fun second =>
      Judgement.pure _ ?_
    rintro ⟨rightShape, rightOrder, rightSafe, rightFit⟩ ⟨leftShape, leftOrder, leftSafe, leftFit⟩
    rw [leftOrder (.inr rfl)] at leftSafe
    rw [rightOrder (.inr rfl)] at rightSafe
    refine ⟨⟨fun accepted => ?_, ?_, rfl, rfl⟩, fun _ => rfl, ⟨?_, ?_⟩, forall_mem_append.mpr ⟨leftFit, rightFit⟩⟩
    · exact ⟨leftShape.accepted accepted.1, rightShape.accepted accepted.2⟩
    · rw [Body.rowExprs, Body.rowExprs, leftShape.rows, rightShape.rows]
    · exact forall_mem_append.mpr ⟨leftSafe.selects, rightSafe.selects⟩
    · exact forall_mem_append.mpr ⟨leftSafe.operands, rightSafe.operands⟩
  | .values _ _, _, _ | .table _, _, _ | .write _, _, _ =>
    Judgement.pure _ ⟨⟨id, rfl, rfl, rfl⟩, fun _ => rfl, ⟨forall_mem_nil _, forall_mem_nil _⟩, forall_mem_nil _⟩

theorem joinQueryWith_guarded (named : s.Named) (distinct : s.Distinct) {q : Query}
    (safe : c.Safe targets (c.Guarded targets) s q) (body : c.SafeBody targets (c.Guarded targets) p s q.orderBy q.body)
    (entries : ∀ cte ∈ q.ctes, p s cte.query) :
    (joining (· ∈ targets)).holds (c.joinQueryWith (dereferences c.layer) nested s q) (c.Guards targets s) := by
  let J := joining (· ∈ targets)
  have entry : ∀ cte ∈ q.ctes, J.holds (joinEntry nested s cte) fun r =>
      r.1.name = cte.name ∧ c.Guards targets s (r.1.query, r.2) := fun cte member =>
    J.bind (visits s cte.query) fun r => J.pure fun guards => ⟨rfl, guards named distinct (entries cte member)⟩
  unfold joinQueryWith
  refine J.bind (J.mapM_mem entry) fun ctes =>
    J.bind (joinBody_guarded visits named distinct q.body q.orderBy body) fun r => J.pure ?_
  rintro ⟨shape, order, safeBody, fit⟩ joined
  have each := forall₂_exists joined.flip
  refine ⟨safe.with_body (Scope.Swells.refl _ s) shape ?_ (fun several => order (.inl several)) safeBody ?_, ?_⟩
  · have names : Forall₂ Eq (q.ctes.map With.nameOf) ((ctes.map (·.1)).map With.nameOf) := by
      rw [map_map]
      refine forall₂_map_left_iff.mpr (forall₂_map_right_iff.mpr (joined.imp fun cte r same => ?_))
      exact congrArg Ident.value same.1.symm
    rw [forall₂_eq_eq_eq] at names
    exact names.symm
  · intro cte member
    obtain ⟨pair, listed, rfl⟩ := mem_map.mp member
    obtain ⟨_, _, _, guards⟩ := each pair listed
    exact guards.safe
  · refine forall_mem_append.mpr ⟨fun j member => ?_, fit⟩
    obtain ⟨pair, listed, inside⟩ := mem_flatMap.mp member
    obtain ⟨_, _, _, guards⟩ := each pair listed
    exact guards.fits j inside

omit visits in
/-- Joining turns a query whose names are guarded into one whose names are secure. -/
theorem joinQueryUpTo_guarded : ∀ (n : Nat) (s : Scope) (q : Query),
    (joining (· ∈ targets)).holds (c.joinQueryUpTo (dereferences c.layer) n s q) fun r => s.Named → s.Distinct →
      c.Safe targets (c.Guarded targets) s q ∧ q.height ≤ n → c.Guards targets s r
  | 0, s, q => Judgement.pure _ fun _ _ inside => absurd q.height_pos (by omega)
  | n + 1, s, q => by
    by_cases inside : s.Named ∧ s.Distinct ∧ c.Safe targets (c.Guarded targets) s q ∧ q.height ≤ n + 1
    · obtain ⟨named, distinct, safe, low⟩ := inside
      rw [joinQueryUpTo]
      refine Judgement.mono _ (joinQueryWith_guarded (joinQueryUpTo_guarded n) named distinct safe (safe.body low)
        fun cte member => ⟨safe.entry member, ?_⟩) fun r guards _ _ _ => guards
      have lower := Query.height_lt_ctes member
      omega
    · -- Nothing is said of other queries, but joining records what it does.
      have follows : JoinsNested c .written (· ∈ targets) (c.joinQueryUpTo (dereferences c.layer) (n + 1)) :=
        joinQueryUpTo_follows (dereferences_sound c.layer) (n + 1)
      exact Judgement.mono _ (follows s q) fun r _ named distinct rest => absurd ⟨named, distinct, rest⟩ inside

end Joining

end Context

end SemanticLayer
