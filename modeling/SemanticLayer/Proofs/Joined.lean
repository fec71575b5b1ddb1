import SemanticLayer.Proofs.Selects

/-! # What joining does to the SELECTs of a query

Every SELECT keeps its place. Its scope grows by the fields of joined models, and its names are those that
the finder of joins leaves, written with their relations where they were bare. Main statement:
`Context.joinQuery_transfers`.
-/

namespace SemanticLayer

open Sql List
open Judgement (always always_lift returns returns_bind)

namespace Context

variable {c : Context} {reach : Reach}

section Qualifying

/-- A SELECT whose names have been qualified in its own scope. -/
def Polished (s s' : Scope) (a a' : Clauses) : Prop :=
  s' = s ∧ a.Qualified s a' ∧ a'.otherNames = a.otherNames

theorem Polished.refl (s : Scope) (a : Clauses) : Polished s s a a := ⟨rfl, .refl s a, rfl⟩

/-- The names of a query are qualified with fields of the scope around it, and stay so in a larger scope. -/
def Polishes (c : Context) (reach : Reach) (outer : Scope) (q q' : Query) : Prop :=
  ∀ scope, outer.Grows c.IsJoined scope → c.Transfers reach Polished (fun _ _ => False) scope scope q q'

theorem Polishes.refl (c : Context) (reach : Reach) (outer : Scope) (q : Query) : c.Polishes reach outer q q :=
  fun _ _ => .refl Polished.refl q

theorem qualifyBody_polishes {nested : Scope → Query → Except CompileError Query}
    (visits : ∀ outer q, outer.Named → returns.holds (nested outer q) (c.Polishes reach outer q))
    {outer : Scope} (named : outer.Named) : ∀ b : Body Query, returns.holds (c.qualifyBody nested outer b) fun b' =>
        ∀ scope, outer.Grows c.IsJoined scope →
          (∀ orderBy, Forall₂ (c.TransfersSelect reach Polished (fun _ _ => False) scope scope)
            (b.selects orderBy) (b'.selects orderBy)) ∧
          Forall₂ (c.Transfers reach Polished (fun _ _ => False) scope scope) b.operands b'.operands
  | .select s => by
    have resolved : ∀ s : Select Query, returns.holds (c.sourceScope s outer) fun inner =>
        inner = { fields := c.sourceFields s.source } :: outer := fun s _ => sourceScope_eq
    rw [qualifyBody]
    refine Judgement.returns_seq fun nearer =>
      returns_bind (Clauses.walkSelect_exprs (qualifyWalk_renames named (some nearer) []) s)
      fun s₁ first => returns_bind (resolved s₁) fun inner same => ?_
    obtain ⟨⟨source, others⟩, qualified⟩ := first
    rw [source] at same
    have innerNamed : inner.Named := same ▸ named_cons named s.source
    refine returns_bind (Clauses.walkSelect_exprs
      (Expr.Walk.keep_keeps fun q => visits inner q innerNamed).renames s₁) fun s₂ second =>
      returns.pure fun scope grows => ⟨fun orderBy => .cons ?_ .nil, .nil⟩
    obtain ⟨⟨source', others'⟩, kept⟩ := second
    have walked : Clauses.Walked outer.Qualifies (c.Polishes reach inner) ⟨s, orderBy⟩ ⟨s₂, orderBy⟩ := by
      refine ⟨⟨source'.trans source, others'.trans others, rfl⟩, fun reach => rel_append ?_ ?_⟩
      · exact forall₂_compose (fun _ _ _ => .comp) (qualified reach) (kept reach)
      · exact forall₂_same.mpr fun e _ => .refl (fun _ => .inl rfl) (.refl c _ inner) e
    have frames : c.frame ⟨s₂, orderBy⟩ = c.frame ⟨s, orderBy⟩ := by
      unfold frame
      rw [walked.same.source]
    constructor
    · rw [frames]
      refine ⟨rfl, walked.qualified.mono fun name known => ?_, walked.same.otherNames⟩
      exact Scope.knows_cons.mpr (.inr (grows.knows known))
    · rw [frames]
      refine .of_pairs ((walked.queries reach).imp fun x x' polishes => polishes _ ?_)
      rw [same]
      exact .cons (.refl _ _) grows
    · rw [walked.same.inner]
      exact .refl _ fun x _ => .refl Polished.refl x
  | .query q => by
    rw [qualifyBody]
    refine returns_bind (visits outer q named) fun q' polishes =>
      returns.pure fun scope grows => ?_
    exact ⟨fun _ => .nil, .cons (polishes scope grows) .nil⟩
  | .setOp word left right => by
    rw [qualifyBody]
    refine returns_bind (qualifyBody_polishes visits named left) fun left' first =>
      returns_bind (qualifyBody_polishes visits named right) fun right' second =>
      returns.pure fun scope grows => ?_
    obtain ⟨leftSelects, leftOperands⟩ := first scope grows
    obtain ⟨rightSelects, rightOperands⟩ := second scope grows
    exact ⟨fun _ => rel_append (leftSelects []) (rightSelects []), rel_append leftOperands rightOperands⟩
  | .values _ _ | .table _ | .write _ => returns.pure fun _ _ => ⟨fun _ => .nil, .nil⟩

theorem qualifyCorrelatedUpTo_polishes : ∀ (n : Nat) (outer : Scope) (q : Query), outer.Named →
    returns.holds (c.qualifyCorrelatedUpTo n outer q) (c.Polishes reach outer q)
  | 0, outer, q, _ => returns.pure (.refl c reach outer q)
  | n + 1, outer, q, named => by
    rw [qualifyCorrelatedUpTo]
    refine returns_bind (qualifyBody_polishes (qualifyCorrelatedUpTo_polishes n) named q.body)
      fun body parts => returns.pure fun scope grows => ?_
    obtain ⟨selects, operands⟩ := parts scope grows
    exact .of_parts (selects q.orderBy) operands (forall₂_same.mpr fun _ _ => .refl Polished.refl _)

end Qualifying

/-- A finder of joins is tidy if it changes nothing but names. -/
def Tidy (find : JoinFinder) : Prop :=
  ∀ a scope, returns.holds (find a scope) fun r =>
    a.SameSource r.1 ∧ ∀ reach, r.1.queries reach = a.queries reach

/-- How a SELECT and the joined one are linked. -/
structure Linked (c : Context) (find : JoinFinder) (s s' : Scope) (a a' : Clauses) : Prop where
  grows : s.Grows c.IsJoined s'
  found : ∃ b b' joins, (∀ reach, b.names reach = a.names reach) ∧ find b s = .ok (b', joins) ∧ b'.Qualified s' a'
  kept : ∀ name ∈ a.otherNames, name ∈ a'.otherNames

/-- A SELECT in the condition of a relationship, with its names qualified. -/
def FromCondition (c : Context) (reach : Reach) (s : Scope) (a : Clauses) : Prop :=
  ∃ x b, c.InCondition x ∧ c.Holds reach [] x s b ∧ b.Qualified s a

/-- The SELECTs of a query and of the joined query are linked, also in a larger scope around the latter. -/
def Matches (c : Context) (find : JoinFinder) (reach : Reach) (parent : Scope) (q q' : Query) : Prop :=
  ∀ scope, parent.Grows c.IsJoined scope → c.Transfers reach (c.Linked find) (c.FromCondition reach) parent scope q q'

/-- Clauses with their own joins added. -/
structure Owns (c : Context) (reach : Reach) (scope : Scope) (a b : Clauses) : Prop where
  source : c.Extends a.select.source b.select.source
  others : b.select.otherExprs = a.select.otherExprs
  order : b.orderBy.length = a.orderBy.length
  names : a.Qualified scope b
  queries : Correspond reach (c.Polishes reach scope) (fun _ => False) (a.queries reach) (b.queries reach)

section Joining

variable {find : JoinFinder} {nested : Scope → Query → Joiner (Query × List RelatedJoin)} {n : Nat}

/-- What joining has linked stays linked when names are qualified afterwards. -/
theorem Matches.polish {outer : Scope} {q q' q'' : Query} (first : c.Matches find reach outer q q')
    (second : c.Polishes reach outer q' q'') : c.Matches find reach outer q q'' := by
  intro scope grows
  have joined := first scope grows
  have polished := second scope grows
  have linked : ∀ {s s' a a' a''}, c.Linked find s s' a a' → a'.Qualified s' a'' → a''.otherNames = a'.otherNames →
      c.Linked find s s' a a'' := by
    intro s s' a a' a'' link qualified same
    obtain ⟨b, b', joins, names, found, earlier⟩ := link.found
    exact ⟨link.grows, ⟨b, b', joins, names, found, earlier.trans qualified⟩,
      fun name member => same ▸ link.kept name member⟩
  constructor
  · intro visited s a holds
    obtain ⟨s', a', holds', link⟩ := joined.forth visited s a holds
    obtain ⟨s'', a'', holds'', rfl, qualified, same⟩ := polished.forth visited s' a' holds'
    exact ⟨s'', a'', holds'', linked link qualified same⟩
  · intro s' a'' holds''
    obtain ⟨_, a', holds', rfl, qualified, same⟩ := (polished.back s' a'' holds'').resolve_right id
    rcases joined.back s' a' holds' with ⟨s, a, holds, link⟩ | ⟨x, b, inside, holds, earlier⟩
    · exact .inl ⟨s, a, holds, linked link qualified same⟩
    · exact .inr ⟨x, b, inside, holds, earlier.trans qualified⟩

theorem nil_named : Scope.Named [] := by
  intro frame member
  cases member

section Steps

variable (visits : ∀ scope q, always.holds (nested scope q) fun r =>
  scope.Named → q.height ≤ n → c.Matches find reach scope q r.1)

include visits in
theorem joinSource_walked (source : List (FromItem Query)) : always.holds (joinSource nested source)
      (c.Walked reach (fun x x' => x.height ≤ n → c.Matches find reach [] x x') (fun _ => False) source) := by
  refine walk_source (Expr.Walk.keep_keeps fun q => ?_).renames (fun r => ?_) source
  · exact always.bind (visits [] q) fun r => always.pure fun h => h nil_named
  · exact always.pure (.refl reach _ r)

include visits in
theorem joinNested_walked (scope : Scope) (a : Clauses) : always.holds (joinNested nested scope a) fun r =>
      a.Walked Eq (fun x x' => scope.Named → x.height ≤ n → c.Matches find reach scope x x') r.1 := by
  unfold joinNested
  exact Judgement.mono _ (Clauses.walk_walked (nestedWalk_keeps (visits scope)).renames a []) fun r h => (h trivial).2

end Steps

theorem joinSource_alone (c : Context) {J : Judgement Joiner} (visits : ∀ q, J.holds (nested [] q) fun _ => True)
    (source : List (FromItem Query)) :
    J.holds (joinSource nested source) (c.Walked .visited (fun _ _ => True) (fun _ => False) source) := by
  refine walk_source (Expr.Walk.keep_keeps fun q => ?_).renames (fun r => J.pure (.refl _ _ r)) source
  exact J.bind (visits q) fun _ => J.pure id

theorem joinSource_names (c : Context) (source : List (FromItem Query)) :
    always.holds (joinSource nested source) fun source' =>
      ∀ name ∈ source.flatMap (FromItem.names .visited), name ∈ source'.flatMap (FromItem.names .visited) := by
  refine always.mono (joinSource_alone c (fun _ _ _ _ _ => trivial) source) fun source' walked name member => ?_
  rcases walked.names.forth name member with ⟨_, member', rfl⟩ | written
  · exact member'
  · cases written

theorem joinOwned_owns (reach : Reach) (joins : List RelatedJoin) (scope : Scope) (a : Clauses) :
    always.holds (c.joinOwned scope joins a) fun b =>
      (∀ j ∈ joins, j.Declared c.layer) → scope.Named → c.Owns reach scope a b := by
  unfold joinOwned
  refine Judgement.ite _ (always.pure fun _ _ => ⟨.refl _, rfl, rfl, .refl scope a, ?_⟩) ?_
  · exact .refl _ fun x _ => .refl c reach scope x
  · refine always.bind always_lift fun b => Judgement.always_bind fun _ =>
      always.pure fun returned declared named => ?_
    obtain ⟨same, qualified, queries⟩ := c.qualify_qualified named (.refl c reach scope)
      (fun q => qualifyCorrelatedUpTo_polishes q.height scope q named) a b returned
    have extended := foldl_addTo_extends declared b.select
    rw [foldl_addTo_eq_place] at extended ⊢
    exact ⟨same.source ▸ extended, same.others, same.order, ⟨qualified.names, qualified.back⟩, queries reach⟩

section Clauses

variable (visits : ∀ scope q, always.holds (nested scope q) fun r =>
  scope.Named → q.height ≤ n → c.Matches find reach scope q r.1)
  (leaves : LeavesDeclared c.layer nested) (sound : find.Sound c.layer) (tidy : Tidy find)
  {parent : Scope} (named : parent.Named)

include visits leaves sound tidy named

theorem joinClauses_transfers (a : Clauses) (low : ∀ x, x ∈ a.queries reach ∨ x ∈ a.inner reach → x.height ≤ n) :
    always.holds (c.joinClauses find nested parent a) fun r =>
      r.1.orderBy.length = a.orderBy.length ∧ ∀ scope, parent.Grows c.IsJoined scope →
        c.TransfersSelect reach (c.Linked find) (c.FromCondition reach) parent scope a r.1 := by
  let J : Judgement Joiner := always
  unfold joinClauses
  simp only [partition_eq_filter_filter]
  refine J.bind (J.and (joinSource_walked visits a.select.source) (joinSource_names c a.select.source)) fun source =>
    J.bind always_lift fun scope =>
    J.bind (J.and (joinNested_leaves leaves scope _) (joinNested_walked visits scope _)) fun asked =>
    J.bind always_lift fun found =>
    J.bind (joinOwned_owns reach _ scope found.1) fun last => J.pure ?_
  rintro own returned ⟨askedDeclared, nestedWalked⟩ scoping ⟨walked, sourceNames⟩
  obtain ⟨same, queries⟩ := tidy _ _ found returned
  obtain rfl : scope = c.frame a :: parent := by
    rw [sourceScope_eq scoping, frame, walked.fields]
  have scopeNamed : Scope.Named (c.frame a :: parent) := named_cons named a.select.source
  have owns := own (fun j member => (forall_mem_append.mpr ⟨askedDeclared, (sound _ _ found returned).2⟩) j
    (mem_of_mem_filter member)) scopeNamed
  have sources : found.1.select.source = source := same.source.trans nestedWalked.same.source
  have frames : (c.frame a).Grows c.IsJoined (c.frame last) := by
    have extended := owns.source.fields
    rw [sources, walked.fields] at extended
    exact extended
  have others : last.select.otherExprs = a.select.otherExprs :=
    owns.others.trans (same.others.trans nestedWalked.same.others)
  refine ⟨owns.order.trans (same.order.trans nestedWalked.same.order), fun outer grows => ?_⟩
  have larger : Scope.Grows c.IsJoined (c.frame a :: parent) (c.frame last :: outer) := .cons frames grows
  refine ⟨⟨larger, ⟨asked.1, found.1, found.2, fun reach => ?_, returned, ?_⟩, ?_⟩, ?_, ?_⟩
  · have names := nestedWalked.names reach
    rw [forall₂_eq_eq_eq] at names
    exact names.symm
  · exact owns.names.mono fun _ known => larger.knows known
  · intro name member
    unfold Clauses.otherNames at member ⊢
    rw [others]
    have extended := owns.source.names .visited
    rw [sources] at extended
    exact (mem_append.mp member).elim (fun inSource => mem_append_left _ (extended.subset (sourceNames name inSource)))
      (fun elsewhere => mem_append_right _ elsewhere)
  · have later := owns.queries
    rw [queries] at later
    refine correspond_comp (fun x member x' x'' earlier polishes => ?_) (fun _ _ => False.elim) (fun _ => id)
      (.of_pairs (nestedWalked.queries reach)) later
    exact ((earlier scopeNamed (low x (.inl member))).polish polishes) _ larger
  · have later := owns.source.inner reach
    rw [sources] at later
    refine correspond_comp (fun x member x' x'' earlier same => ?_) (fun _ _ => False.elim) (fun x inside => ?_)
      walked.inner later
    · exact same ▸ earlier (low x (.inr member)) [] .nil
    · exact fun s b holds => ⟨x, b, inside, holds, .refl s b⟩

theorem joinBody_transfers : ∀ (b : Body Query) (orderBy : List (OrderItem Query)),
    (∀ a ∈ b.selects orderBy, ∀ x, x ∈ a.queries reach ∨ x ∈ a.inner reach → x.height ≤ n) →
    (∀ x ∈ b.operands, x.height ≤ n) → always.holds (c.joinBody find nested parent orderBy b) fun r =>
      r.2.1.length = orderBy.length ∧ ∀ scope, parent.Grows c.IsJoined scope →
        Forall₂ (c.TransfersSelect reach (c.Linked find) (c.FromCondition reach) parent scope)
          (b.selects orderBy) (r.1.selects r.2.1) ∧
        Forall₂ (c.Transfers reach (c.Linked find) (c.FromCondition reach) parent scope) b.operands r.1.operands
  | .select s, orderBy, low, _ => by
    rw [joinBody]
    refine always.bind (joinClauses_transfers visits leaves sound tidy named ⟨s, orderBy⟩
      (low _ (mem_singleton_self _))) fun r => always.pure ?_
    rintro ⟨order, transfers⟩
    exact ⟨order, fun scope grows => ⟨.cons (transfers scope grows) .nil, .nil⟩⟩
  | .query q, orderBy, _, low => by
    rw [joinBody]
    refine always.bind (visits parent q) fun r => always.pure fun linked => ?_
    have transfers := linked named (low q (mem_singleton_self q))
    exact ⟨rfl, fun scope grows => ⟨.nil, .cons (transfers scope grows) .nil⟩⟩
  | .setOp word left right, orderBy, low, operandsLow => by
    rw [joinBody]
    refine always.bind (joinBody_transfers left [] (fun a member => low a (mem_append_left _ member))
      fun x member => operandsLow x (mem_append_left _ member)) fun first =>
      always.bind (joinBody_transfers right [] (fun a member => low a (mem_append_right _ member))
      fun x member => operandsLow x (mem_append_right _ member)) fun second => always.pure ?_
    rintro ⟨secondOrder, later⟩ ⟨firstOrder, earlier⟩
    rw [length_nil, length_eq_zero_iff] at firstOrder secondOrder
    rw [firstOrder] at earlier
    rw [secondOrder] at later
    refine ⟨rfl, fun scope grows => ⟨?_, ?_⟩⟩
    · exact rel_append (earlier scope grows).1 (later scope grows).1
    · exact rel_append (earlier scope grows).2 (later scope grows).2
  | .values _ _, _, _, _ | .table _, _, _, _ | .write _, _, _, _ =>
    always.pure ⟨rfl, fun _ _ => ⟨.nil, .nil⟩⟩

end Clauses

theorem joinQueryUpTo_matches (reach : Reach) (sound : find.Sound c.layer) (tidy : Tidy find) :
    ∀ (n : Nat) (parent : Scope) (q : Query), always.holds (c.joinQueryUpTo find n parent q) fun r =>
      parent.Named → q.height ≤ n → c.Matches find reach parent q r.1
  | 0, parent, q => always.pure fun _ low => absurd q.height_pos (by omega)
  | n + 1, parent, q => by
    by_cases named : parent.Named ∧ q.height ≤ n + 1
    · obtain ⟨named, low⟩ := named
      have visits := joinQueryUpTo_matches reach sound tidy n
      have entry : ∀ cte, always.holds (joinEntry (c.joinQueryUpTo find n) parent cte) fun r =>
          cte.query.height ≤ n → c.Matches find reach parent cte.query r.1.query :=
        fun cte => always.bind (visits parent cte.query) fun r => always.pure fun h => h named
      rw [joinQueryUpTo, joinQueryWith]
      refine always.bind (always.mapM entry q.ctes) fun ctes =>
        always.bind (joinBody_transfers visits (joinQueryUpTo_leaves allows_always sound.finds n) sound tidy
          named q.body q.orderBy ?_ ?_) fun r => always.pure ?_
      · intro a member x nested
        have := Query.height_lt_of_select member nested
        omega
      · intro x member
        have := Query.height_lt_of_operand member
        omega
      · rintro ⟨_, parts⟩ entries _ _ scope grows
        obtain ⟨selects, operands⟩ := parts scope grows
        refine .of_parts selects operands (forall₂_map_right_iff.mpr ?_)
        refine forall₂_of_mem entries fun cte member r linked => linked ?_ scope grows
        have := Query.height_lt_ctes member
        omega
    · intro _ _ _ _ parentNamed low
      exact absurd ⟨parentNamed, low⟩ named

theorem joinQuery_transfers (reach : Reach) (sound : find.Sound c.layer) (tidy : Tidy find) {q q' : Query}
    {targets : List String} (joins : c.joinQuery find q = .ok (q', targets)) :
    c.Transfers reach (c.Linked find) (c.FromCondition reach) [] [] q q' := by
  exact joinQueryUpTo_matches reach sound tidy q.height [] q [] _ _ (joinQuery_eq_ok joins) nil_named (Nat.le_refl _)
    [] .nil

end Joining

end Context

end SemanticLayer
