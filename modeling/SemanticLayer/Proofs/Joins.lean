import SemanticLayer.Proofs.Meanings
import SemanticLayer.Proofs.Findings
import SemanticLayer.Proofs.KeyExpansion
import SemanticLayer.Proofs.Walks

/-! # What joining related models does to reading

Joining keeps everything that a query mentions and adds the joined models, with whatever the conditions
of their relationships mention. Main statement: `Context.joinQuery_follows`.
-/

namespace SemanticLayer

open Sql List
open Judgement (always always_lift returns returns_bind returns_seq keeping_lift keeping_modify recording_lift)

/-- A join that some relationship column asks for. -/
def RelatedJoin.Declared (l : Layer) (j : RelatedJoin) : Prop :=
  ∃ field, RelatedJoin.ofField l field = .ok j

section GroupKeys

variable {l : Layer} {items : List (SelectItem Query)} {s : Scope} {keys keys' : List (Expr Query)}
  {joins : List RelatedJoin}

theorem KeysExpanded.declared (done : KeysExpanded l items s keys keys' joins) : ∀ j ∈ joins, j.Declared l := by
  induction done with
  | nil => simp
  | key _ _ join _ _ _ ih => exact forall_mem_cons.mpr ⟨⟨_, join⟩, ih⟩
  | other _ _ ih => exact ih

theorem KeysExpanded.queries (done : KeysExpanded l items s keys keys' joins) :
    keys'.flatMap Expr.queries = keys.flatMap Expr.queries := by
  induction done with
  | nil => rfl
  | key _ _ _ _ _ _ ih => simp [Expr.queries, ih]
  | other _ _ ih => simp [ih]

end GroupKeys

theorem RelatedJoin.requalify_pairs (model target owner label : String) (condition : Expr Query) :
    Forall₂ (fun _ _ => True) condition.queries (requalify model target owner label condition).queries := by
  let e : Edit Id := { Edit.keep Id with path := requalifyPath model target owner label }
  have path : ∀ parts, (requalifyPath model target owner label parts).queries = [] := by
    intro parts
    unfold requalifyPath
    split
    · split
      · rfl
      · split <;> rfl
    · rfl
  have flat : (e.walk (Query.edit e)).Flat Judgement.id fun _ _ => True :=
    ⟨fun _ => rfl, path, fun _ => trivial⟩
  exact Expr.walk_pairs flat condition

theorem RelatedJoin.ofField_cases (l : Layer) (f : Field) :
    (∃ e, RelatedJoin.ofField l f = .error e ∧ e.kind ≠ .ambiguous) ∨
    ∃ name target r condition, f.relationship = some name ∧ f.target = some target ∧ l.relationship? name = some r ∧
      Expr.parseItem r.condition = .ok condition ∧ RelatedJoin.ofField l f = .ok
        ⟨f.qualifier, f.qualifier ++ "_" ++ f.name, target,
          requalify f.table.table target f.qualifier (f.qualifier ++ "_" ++ f.name) condition⟩ := by
  unfold RelatedJoin.ofField
  split
  · rename_i name target related leads
    cases found : l.relationship? name with
    | none => exact .inl ⟨_, rfl, nofun⟩
    | some r =>
      dsimp only
      split
      · exact .inl ⟨_, rfl, nofun⟩
      · cases parsed : Expr.parseItem r.condition with
        | error fault => exact .inl ⟨_, rfl, nofun⟩
        | ok condition => exact .inr ⟨name, target, r, condition, related, leads, found, parsed, rfl⟩
  · exact .inl ⟨_, rfl, nofun⟩

/-- A join condition holds as many queries as that of its relationship. -/
theorem RelatedJoin.Declared.relationship {l : Layer} {j : RelatedJoin} (declared : j.Declared l) :
    ∃ r ∈ l.manifest.relationships, ∃ condition, Expr.parseItem r.condition = .ok condition ∧
      Forall₂ (fun _ _ => True) condition.queries j.condition.queries := by
  obtain ⟨field, ok⟩ := declared
  rcases RelatedJoin.ofField_cases l field with ⟨e, failed, _⟩ | ⟨_, _, r, condition, _, _, found, parsed, made⟩
  · rw [failed] at ok
    cases ok
  · rw [made] at ok
    cases ok
    refine ⟨r, ?_, condition, parsed, RelatedJoin.requalify_pairs _ _ _ _ condition⟩
    exact mem_reverse.mp (mem_of_find?_eq_some found)

section Clauses

variable {gone new : Mention → Prop} {reach : Reach}

/-- What clauses and a FROM clause mention and hold follows a change that leaves mentions alone. -/
structure Clauses.Follows (gone new : Mention → Prop) (reach : Reach) (a b : Clauses) : Prop where
  source : FromItem.Alike (.upTo gone new) reach (Query.Follows (.upTo gone new) reach) a.select.source b.select.source
  clauses : (Change.upTo gone new).Queries reach (Query.Follows (.upTo gone new) reach)
    (a.select.clauseQueries reach) (b.select.clauseQueries reach)
  others : b.select.otherQueries = a.select.otherQueries
  order : (Change.upTo gone new).Queries reach (Query.Follows (.upTo gone new) reach)
    (orderQueries a.orderBy) (orderQueries b.orderBy)

theorem fromItems_refl (items : List (FromItem Query)) :
    FromItem.Alike (.upTo gone new) reach (Query.Follows (.upTo gone new) reach) items items :=
  ⟨Change.mentions_refl _, Change.queries_refl _⟩

theorem Clauses.Follows.refl (gone new : Mention → Prop) (reach : Reach) (a : Clauses) : a.Follows gone new reach a :=
  ⟨fromItems_refl _, Change.queries_refl _, rfl, Change.queries_refl _⟩

theorem Clauses.Follows.trans {a b c : Clauses} (first : a.Follows gone new reach b)
    (second : b.Follows gone new reach c) : a.Follows gone new reach c where
  source := ⟨Change.mentions_trans first.source.mentions second.source.mentions,
    Change.queries_trans first.source.inner second.source.inner⟩
  clauses := Change.queries_trans first.clauses second.clauses
  others := second.others.trans first.others
  order := Change.queries_trans first.order second.order

variable {m : Type → Type} [Monad m] [LawfulMonad m] {J : Judgement m} {w : Expr.Walk m Query Query}

theorem Clauses.walkSelect_follows (flat : w.Flat J (Query.Follows (.upTo gone new) reach)) (s : Select Query)
    (orderBy : List (OrderItem Query)) :
    J.holds (Clauses.walkSelect w s) fun s' => Clauses.Follows gone new reach ⟨s, orderBy⟩ ⟨s', orderBy⟩ := by
  unfold Clauses.walkSelect
  refine J.bind (J.mapM (SelectItem.walk_inner (.upTo gone new) reach flat) s.items) fun _ =>
    J.bind (walkOption_queries (.upTo gone new) reach flat s.filter) fun _ =>
    J.bind (GroupBy.walk_queries (.upTo gone new) reach flat s.groupBy) fun _ =>
    J.bind (walkOption_queries (.upTo gone new) reach flat s.having) fun _ =>
    J.bind (walkOption_queries (.upTo gone new) reach flat s.qualify) fun _ => J.pure ?_
  intro qualify having groupBy filter items
  refine ⟨fromItems_refl _, ?_, rfl, Change.queries_refl _⟩
  exact ((((Tracks.flatMap items).append filter).append groupBy).append having).append qualify

theorem Clauses.walk_follows (flat : w.Flat J (Query.Follows (.upTo gone new) reach)) (a : Clauses) :
    J.holds (a.walk w) (a.Follows gone new reach) := by
  unfold Clauses.walk
  refine J.bind (Clauses.walkSelect_follows flat a.select a.orderBy) fun select =>
    J.bind (OrderItem.walk_queries (.upTo gone new) reach flat a.orderBy) fun orderBy => J.pure ?_
  intro order selected
  exact ⟨selected.source, selected.clauses, selected.others, order⟩

end Clauses

section Qualifying

variable {gone new : Mention → Prop} {reach : Reach}

theorem qualifyWalk_flat (gone new : Mention → Prop) (reach : Reach) (scope : Scope) (nearer : Option Scope)
    (outputs : List String) :
    (qualifyWalk scope nearer outputs).Flat returns (Query.Follows (.upTo gone new) reach) where
  ident name := by
    unfold qualifyWalk
    refine Judgement.ite _ (returns.pure rfl) (Judgement.ite _ (returns.pure rfl) ?_)
    refine returns_seq fun found => ?_
    cases found with
    | none => exact returns.pure rfl
    | some field => exact returns.pure rfl
  path parts := returns.pure rfl
  query q := returns.pure (.refl gone new reach q)

variable (c : Context)

theorem qualifyBody_alike {nested : Scope → Query → Except CompileError Query}
    (visits : ∀ outer q, returns.holds (nested outer q) (q.Follows (.upTo gone new) reach))
    (outer : Scope) : ∀ b : Body Query, returns.holds (c.qualifyBody nested outer b)
      (b.Alike (.upTo gone new) reach (Query.Follows (.upTo gone new) reach))
  | .select s => by
    rw [Context.qualifyBody]
    refine returns_seq fun nearer =>
      returns_bind (Clauses.walkSelect_follows (qualifyWalk_flat gone new reach outer (some nearer) []) s [])
      fun s₁ first => returns_seq fun inner =>
      returns_bind (Clauses.walkSelect_follows (Expr.Walk.keep_keeps (visits inner)).flat s₁ [])
      fun s₂ second => returns.pure ?_
    have both := first.trans second
    refine ⟨both.source.mentions, (both.source.inner.append both.clauses).append ?_⟩
    rw [both.others]
    exact (Change.queries_refl _).aside reach
  | .query q => by
    rw [Context.qualifyBody]
    exact returns_bind (visits outer q) fun q' follows =>
      returns.pure ⟨.nil, .single follows⟩
  | .setOp word left right => by
    rw [Context.qualifyBody]
    refine returns_bind (qualifyBody_alike visits outer left) fun left' first =>
      returns_bind (qualifyBody_alike visits outer right) fun right' second =>
      returns.pure ?_
    exact ⟨first.mentions.append second.mentions, first.inner.append second.inner⟩
  | .values _ _ | .table _ | .write _ =>
    returns.pure ⟨Change.mentions_refl _, Change.queries_refl _⟩

theorem qualifyCorrelatedUpTo_follows : ∀ (n : Nat) (outer : Scope) (q : Query),
    returns.holds (c.qualifyCorrelatedUpTo n outer q) (q.Follows (.upTo gone new) reach)
  | 0, _, q => returns.pure (.refl gone new reach q)
  | n + 1, outer, q => by
    rw [Context.qualifyCorrelatedUpTo]
    refine returns_bind (qualifyBody_alike c (qualifyCorrelatedUpTo_follows n) outer q.body)
      fun body alike => returns.pure ?_
    refine Query.Alike.follows ⟨rfl, ?_, alike.mentions, ?_⟩
    · exact forall₂_same.mpr fun cte _ => ⟨rfl, .refl gone new reach cte.query⟩
    · exact (alike.inner.append (Change.queries_refl _)).append (Change.queries_refl _)

theorem spreadWildcard_queries (new : Mention → Prop) (lost : reach = .written → ∀ mention, gone mention)
    (relations : List String) : ∀ items : List (SelectItem Query),
      (Change.upTo gone new).Queries reach (Query.Follows (.upTo gone new) reach)
        (items.flatMap (SelectItem.inner reach)) ((spreadWildcard relations items).flatMap (SelectItem.inner reach))
  | [] => .nil
  | .wildcard options :: rest => by
    rw [spreadWildcard, flatMap_cons, flatMap_append]
    refine Tracks.append ⟨fun x member => ?_, fun x member => ?_⟩ (Change.queries_refl _)
    · cases reach with
      | visited => cases member
      | written => exact .inr fun mention _ => lost rfl mention
    · obtain ⟨item, spread, member⟩ := mem_flatMap.mp member
      obtain ⟨name, _, rfl⟩ := mem_map.mp spread
      exact .inl ⟨x, member, .refl gone new reach x⟩
  | .qualifiedWildcard _ _ :: rest | .expr _ :: rest | .aliased _ _ :: rest =>
    (Change.queries_refl _).append (spreadWildcard_queries new lost relations rest)

theorem qualify_follows (lost : reach = .written → ∀ mention, gone mention) (scope : Scope) (clauses : Clauses) :
    returns.holds (c.qualify scope clauses) (clauses.Follows gone new reach) := by
  have flat : Expr.Walk.Flat returns
      { Expr.Walk.keep (Except CompileError) Query with query := c.qualifyCorrelated scope }
      (Query.Follows (.upTo gone new) reach) :=
    (Expr.Walk.keep_keeps fun q => qualifyCorrelatedUpTo_follows c q.height scope q).flat
  unfold Context.qualify
  refine returns_bind
      (Clauses.walkSelect_follows (qualifyWalk_flat gone new reach scope none []) clauses.select clauses.orderBy)
    fun select first => returns_bind
      (OrderItem.walk_queries (.upTo gone new) reach (qualifyWalk_flat gone new reach scope none _) clauses.orderBy)
    fun orderBy ordered => returns_bind (Clauses.walkSelect_follows flat select clauses.orderBy)
    fun select' second => returns.pure ?_
  have both := first.trans second
  refine ⟨both.source, Change.queries_trans both.clauses ?_, both.others, ordered⟩
  have items := spreadWildcard_queries new lost (select'.source.flatMap relationNames) select'.items
  exact (((items.append (Change.queries_refl _)).append (Change.queries_refl _)).append
    (Change.queries_refl _)).append (Change.queries_refl _)

end Qualifying

section Adding

variable {gone new : Mention → Prop} {reach : Reach}

theorem Join.mentionsAll_append (js js' : List (Join Query)) :
    Join.mentionsAll (js ++ js') = Join.mentionsAll js ++ Join.mentionsAll js' := by
  induction js with
  | nil => rfl
  | cons j js ih =>
    cases j
    simp only [cons_append, Join.mentionsAll, ih, append_assoc]

theorem Join.innerAll_append (reach : Reach) (js js' : List (Join Query)) :
    Join.innerAll reach (js ++ js') = Join.innerAll reach js ++ Join.innerAll reach js' := by
  induction js with
  | nil => rfl
  | cons j js ih =>
    cases j
    simp only [cons_append, Join.innerAll, ih, append_assoc]

theorem tracks_flatMap_modify {α β : Type} {kept : β → β → Prop} {lost fresh : β → Prop} {f : α → α} {g : α → List β}
    {extra : List β} (refl : ∀ b, kept b b) (grows : ∀ a, g (f a) = g a ++ extra) (allowed : ∀ b ∈ extra, fresh b) :
    ∀ (l : List α) (i : Nat), Tracks kept lost fresh (l.flatMap g) ((l.modify i f).flatMap g)
  | [], i => by
    rw [modify_nil]
    exact .nil
  | a :: l, 0 => by
    rw [modify_zero_cons, flatMap_cons, flatMap_cons, grows]
    refine Tracks.append ⟨fun b member => ?_, fun b member => ?_⟩ (.refl _ fun b _ => refl b)
    · exact .inl ⟨b, mem_append_left _ member, refl b⟩
    · rcases mem_append.mp member with member | member
      · exact .inl ⟨b, member, refl b⟩
      · exact .inr (allowed b member)
  | a :: l, i + 1 => by
    rw [modify_succ_cons, flatMap_cons, flatMap_cons]
    exact (Tracks.refl _ fun b _ => refl b).append (tracks_flatMap_modify refl grows allowed l i)

/-- Puts a join behind the FROM item of its owner, unless its name is taken. -/
def RelatedJoin.place (j : RelatedJoin) (source : List (FromItem Query)) : List (FromItem Query) :=
  if source.any fun item => (relationNames item).contains j.label then source
  else appendWhere (fun item => (relationNames item).contains j.owner) j.toJoin source

/-- Puts joins into a FROM clause, from the first to the last. -/
def placeJoins (joins : List RelatedJoin) (source : List (FromItem Query)) : List (FromItem Query) :=
  joins.foldl (fun source j => j.place source) source

theorem foldl_addTo_eq_place (joins : List RelatedJoin) (s : Select Query) :
    joins.foldl (fun s j => j.addTo s) s = { s with source := placeJoins joins s.source } := by
  induction joins generalizing s with
  | nil => rfl
  | cons j joins ih =>
    have placed : j.addTo s = { s with source := j.place s.source } := by
      unfold RelatedJoin.addTo RelatedJoin.place
      split <;> rfl
    rw [foldl_cons, ih, placed]
    rfl

/-- A join may be added if all that it brings in is new. -/
def RelatedJoin.Allowed (new : Mention → Prop) (reach : Reach) (j : RelatedJoin) : Prop :=
  new (.table [.ofName j.target]) ∧ ∀ x ∈ j.condition.queries, ∀ mention, x.Mentions reach mention → new mention

theorem RelatedJoin.toJoin_inner (reach : Reach) (j : RelatedJoin) :
    Join.innerAll reach [j.toJoin] = j.condition.queries := by
  cases reach <;> simp [RelatedJoin.toJoin, Join.innerAll, Relation.inner, argumentQueries, Expr.empty,
    Expr.queries, Expr.queries.queriesAll, JoinKind.queries, JoinConstraint.queries, Reach.aside]

theorem RelatedJoin.inner_appendJoin (reach : Reach) (j : RelatedJoin) (item : FromItem Query) :
    FromItem.inner reach (appendJoin j.toJoin item) = item.inner reach ++ j.condition.queries := by
  simp only [appendJoin, FromItem.inner, Join.innerAll_append, append_assoc, RelatedJoin.toJoin_inner]

theorem RelatedJoin.addTo_follows (gone : Mention → Prop) {j : RelatedJoin}
    (allowed : j.Allowed new reach) (s : Select Query) (orderBy : List (OrderItem Query)) :
    Clauses.Follows gone new reach ⟨s, orderBy⟩ ⟨j.addTo s, orderBy⟩ := by
  unfold RelatedJoin.addTo
  split
  · exact .refl gone new reach _
  · have mentions : ∀ item : FromItem Query, (appendJoin j.toJoin item).mentions =
        item.mentions ++ [.table [.ofName j.target]] := by
      intro item
      simp only [appendJoin, FromItem.mentions, Join.mentionsAll_append, append_assoc]
      rfl
    refine ⟨⟨?_, ?_⟩, Change.queries_refl _, rfl, Change.queries_refl _⟩
    · refine tracks_flatMap_modify (fun _ => rfl) mentions (fun mention member => ?_) s.source _
      rw [mem_singleton.mp member]
      exact allowed.1
    · exact tracks_flatMap_modify (fun x => .refl gone new reach x) (j.inner_appendJoin reach) allowed.2 s.source _

theorem foldl_addTo_follows (gone : Mention → Prop) : ∀ {joins : List RelatedJoin}, (∀ j ∈ joins, j.Allowed new reach) →
    ∀ (s : Select Query) (orderBy : List (OrderItem Query)),
      Clauses.Follows gone new reach ⟨s, orderBy⟩ ⟨joins.foldl (fun s j => j.addTo s) s, orderBy⟩
  | [], _, s, orderBy => .refl gone new reach _
  | j :: joins, allowed, s, orderBy => by
    rw [foldl_cons]
    have first := RelatedJoin.addTo_follows gone (allowed j mem_cons_self) s orderBy
    have rest := foldl_addTo_follows gone (fun j member => allowed j (mem_cons_of_mem _ member)) (j.addTo s) orderBy
    exact first.trans rest

end Adding

/-- A finder is sound if it leaves nested queries alone and asks for declared joins only. -/
def JoinFinder.Sound (l : Layer) (find : JoinFinder) : Prop :=
  ∀ clauses scope, returns.holds (find clauses scope) fun r =>
    (∀ gone new reach, clauses.Follows gone new reach r.1) ∧ ∀ j ∈ r.2, j.Declared l

/-- The joins that a finder asks for have a property. -/
def JoinFinder.Finds (p : RelatedJoin → Prop) (find : JoinFinder) : Prop :=
  ∀ clauses scope, returns.holds (find clauses scope) fun r => ∀ j ∈ r.2, p j

theorem JoinFinder.Sound.finds {l : Layer} {find : JoinFinder} (sound : find.Sound l) : find.Finds (·.Declared l) :=
  fun clauses scope r found => (sound clauses scope r found).2

namespace Context

private theorem forall_of_forall₂ {α β : Type} {p : β → Prop} {l : List α} {l' : List β}
    (h : Forall₂ (fun _ b => p b) l l') : ∀ b ∈ l', p b := by
  induction h with
  | nil => simp
  | cons first _ ih => exact forall_mem_cons.mpr ⟨first, ih⟩

section Leaving

variable {c : Context} {find : JoinFinder} {p : RelatedJoin → Prop} {J : Judgement Joiner}
  {nested : Scope → Query → Joiner (Query × List RelatedJoin)}

/-- The joins that a query leaves to others have a property. -/
def Leaves (p : RelatedJoin → Prop) (nested : Scope → Query → Joiner (Query × List RelatedJoin)) : Prop :=
  ∀ scope q, always.holds (nested scope q) fun r => ∀ j ∈ r.2, p j

abbrev LeavesDeclared (l : Layer) (nested : Scope → Query → Joiner (Query × List RelatedJoin)) : Prop :=
  Leaves (·.Declared l) nested

def LeavesBy (J : Judgement Joiner) (p : RelatedJoin → Prop)
    (nested : Scope → Query → Joiner (Query × List RelatedJoin)) : Prop :=
  ∀ scope q, J.holds (nested scope q) fun r => ∀ j ∈ r.2, p j

/-- A judgement of joining that allows joins with a property. What a step returns may be used to judge the next one. -/
structure Allows (c : Context) (J : Judgement Joiner) (p : RelatedJoin → Prop) : Prop where
  sure : ∀ {α β : Type} {x : Joiner α} {f : α → Joiner β} {q : α → Prop} {r : β → Prop},
    J.holds x q → (∀ a, q a → J.holds (f a) r) → J.holds (x >>= f) r
  lift : ∀ {α : Type} {x : Except CompileError α}, J.holds (liftM x : Joiner α) fun a => x = .ok a
  owned : ∀ (scope : Scope) {joins : List RelatedJoin} (a : Clauses), (∀ j ∈ joins, p j) →
    J.holds (c.joinOwned scope joins a) fun _ => True

theorem allows_always : c.Allows always p where
  sure h hf s b s' returned := by
    obtain ⟨⟨a, s₁⟩, first, second⟩ := bind_eq_ok_iff.mp returned
    exact hf a (h s a s₁ first) s₁ b s' second
  lift := always_lift
  owned _ _ _ _ _ _ _ _ := trivial

theorem joinSource_alike (gone new : Mention → Prop) (reach : Reach) (related : Query → Query → Prop)
    (visits : ∀ q, J.holds (nested [] q) fun r => related q r.1) (source : List (FromItem Query)) :
    J.holds (joinSource nested source) (FromItem.Alike (.upTo gone new) reach related source) := by
  refine FromItem.mapM_walk_alike (Expr.Walk.keep_keeps fun q => ?_)
    ⟨fun _ _ => rfl, fun r _ => J.pure ⟨?_, ?_, ?_⟩⟩ source
  · exact J.bind (visits q) fun r => J.pure id
  · exact Change.mentions_refl _
  · exact fun x member => .inl member
  · exact fun x member => .inl member

theorem joinNested_leaves (leaves : LeavesBy J p nested) (scope : Scope) (clauses : Clauses) :
    J.holds (joinNested nested scope clauses) fun r => ∀ j ∈ r.2, p j := by
  -- Nothing is asked of what the nested queries read here, so any change will do.
  have flat : (nestedWalk nested scope).Flat (J.keeping fun joins : List RelatedJoin => ∀ j ∈ joins, p j)
      (Query.Follows (.upTo (fun _ => True) fun _ => True) .written) := by
    refine (Expr.Walk.keep_keeps fun q => ?_).flat
    refine Judgement.keeping_lift_bind (leaves scope q) fun r joins => J.pure fun left kept => ?_
    refine ⟨forall_mem_append.mpr ⟨kept, left⟩, fun _ _ => ⟨fun _ _ => .inr trivial, ?_⟩⟩
    exact fun _ _ => .inr trivial
  unfold joinNested
  refine J.mono (Clauses.walk_follows flat clauses []) fun r h => (h (by simp)).1

section Finding

variable (allows : c.Allows J p) (finds : find.Finds p)

include allows finds

theorem joinClauses_leaves (leaves : LeavesBy J p nested) (parent : Scope) (clauses : Clauses) :
    J.holds (c.joinClauses find nested parent clauses) fun r => ∀ j ∈ r.2, p j := by
  unfold joinClauses
  simp only [partition_eq_filter_filter]
  have visits : ∀ q, J.holds (nested [] q) fun _ => True := fun q => J.mono (leaves [] q) fun _ _ => trivial
  refine allows.sure (joinSource_alike (fun _ => True) (fun _ => True) .written (fun _ _ => True) visits _) fun source _ =>
    allows.sure allows.lift fun scope _ =>
    allows.sure (joinNested_leaves leaves scope _) fun asked left => allows.sure allows.lift fun found returned => ?_
  have all : ∀ j ∈ asked.2 ++ found.2, p j := forall_mem_append.mpr ⟨left, finds _ _ found returned⟩
  refine allows.sure (allows.owned scope found.1 fun j member => all j (mem_of_mem_filter member)) fun joined _ =>
    J.pure fun j member => all j (mem_of_mem_filter member)

theorem joinBody_leaves (leaves : LeavesBy J p nested) (parent : Scope) :
    ∀ (orderBy : List (OrderItem Query)) (b : Body Query),
      J.holds (c.joinBody find nested parent orderBy b) fun r => ∀ j ∈ r.2.2, p j
  | orderBy, .select s => by
    rw [joinBody]
    exact J.bind (joinClauses_leaves allows finds leaves parent _) fun r => J.pure id
  | orderBy, .query q => by
    rw [joinBody]
    exact J.bind (leaves parent q) fun r => J.pure id
  | orderBy, .setOp word left right => by
    rw [joinBody]
    refine J.bind (joinBody_leaves leaves parent [] left) fun first =>
      J.bind (joinBody_leaves leaves parent [] right) fun second => J.pure fun later earlier => ?_
    exact forall_mem_append.mpr ⟨earlier, later⟩
  | orderBy, .values _ _ | orderBy, .table _ | orderBy, .write _ => J.pure (by simp)

theorem joinQueryUpTo_leaves : ∀ n, LeavesBy J p (c.joinQueryUpTo find n)
  | 0 => fun _ _ => J.pure (by simp)
  | n + 1 => by
    intro parent q
    have leaves := joinQueryUpTo_leaves n
    have entry : ∀ cte, J.holds (joinEntry (c.joinQueryUpTo find n) parent cte) fun r => ∀ j ∈ r.2, p j :=
      fun cte => J.bind (leaves parent cte.query) fun r => J.pure id
    rw [joinQueryUpTo, joinQueryWith]
    refine J.bind (J.mapM entry q.ctes) fun ctes =>
      J.bind (joinBody_leaves allows finds leaves parent q.orderBy q.body) fun body =>
      J.pure fun bodies entries => forall_mem_append.mpr ⟨?_, bodies⟩
    intro j member
    obtain ⟨pair, listed, member⟩ := mem_flatMap.mp member
    exact forall_of_forall₂ entries pair listed j member

end Finding

end Leaving

/-- What joining brings in: the joined models, and what conditions of relationships mention. -/
def JoinBrings (l : Layer) (reach : Reach) (joined : String → Prop) (mention : Mention) : Prop :=
  (∃ target, joined target ∧ mention = .table [.ofName target]) ∨
    ∃ j : RelatedJoin, j.Declared l ∧ ∃ x ∈ j.condition.queries, x.Mentions reach mention

/-- The change that joining makes. Only clauses that no analysis visits may lose something. -/
abbrev joinChange (l : Layer) (reach : Reach) (joined : String → Prop) : Change :=
  .upTo (fun _ => reach = .written) (JoinBrings l reach joined)

/-- Joining, judged against all models that are joined in the end. -/
abbrev joining (joined : String → Prop) : Judgement Joiner :=
  Judgement.recording (fun (targets : List String) target => target ∈ targets) joined

section Follows

variable {c : Context} {find : JoinFinder} {reach : Reach} {joined : String → Prop}
  {nested : Scope → Query → Joiner (Query × List RelatedJoin)}

def JoinsNested (c : Context) (reach : Reach) (joined : String → Prop)
    (nested : Scope → Query → Joiner (Query × List RelatedJoin)) : Prop :=
  ∀ scope q, (joining joined).holds (nested scope q) fun r =>
    q.Follows (joinChange c.layer reach joined) reach r.1

theorem nestedWalk_keeps {J : Judgement Joiner} {scope : Scope} {related : Query → Query → Prop}
    (visits : ∀ q, J.holds (nested scope q) fun r => related q r.1) :
    (nestedWalk nested scope).Keeps (J.keeping fun _ : List RelatedJoin => True) related := by
  refine Expr.Walk.keep_keeps fun q => ?_
  refine Judgement.bind _ (keeping_lift (visits q)) fun r =>
    Judgement.bind _ (keeping_modify fun _ _ => trivial) fun _ => Judgement.pure _ ?_
  exact fun _ visited => visited

theorem joinNested_follows (joins : JoinsNested c reach joined nested) (scope : Scope) (clauses : Clauses) :
    (joining joined).holds (joinNested nested scope clauses) fun r =>
      clauses.Follows (fun _ => reach = .written) (JoinBrings c.layer reach joined) reach r.1 := by
  unfold joinNested
  exact Judgement.mono _ (Clauses.walk_follows (nestedWalk_keeps (joins scope)).flat clauses []) fun r h => (h trivial).2

theorem foldl_insertName {joins : List RelatedJoin} {targets : List String} {target : String} :
    target ∈ joins.foldl (fun targets j => insertName j.target targets) targets ↔
      target ∈ targets ∨ ∃ j ∈ joins, j.target = target := by
  induction joins generalizing targets with
  | nil => simp
  | cons j joins ih =>
    rw [foldl_cons, ih, mem_insertName]
    simp only [mem_cons, exists_eq_or_imp]
    grind

theorem targets_noted (joins : List RelatedJoin) : (joining joined).holds
    (modify fun targets => joins.foldl (fun targets j => insertName j.target targets) targets)
    fun _ => ∀ j ∈ joins, joined j.target :=
  Judgement.recording_modify (fun _ _ old => foldl_insertName.mpr (.inl old))
    fun _ all j member => all _ (foldl_insertName.mpr (.inr ⟨j, member, rfl⟩))

theorem joinOwned_follows {joins : List RelatedJoin} (declared : ∀ j ∈ joins, j.Declared c.layer)
    (scope : Scope) (clauses : Clauses) : (joining joined).holds (c.joinOwned scope joins clauses)
      (clauses.Follows (fun _ => reach = .written) (JoinBrings c.layer reach joined) reach) := by
  unfold joinOwned
  refine Judgement.ite _ (Judgement.pure _ (.refl _ _ reach clauses)) ?_
  refine Judgement.bind _ recording_lift fun qualified => Judgement.bind _ (targets_noted joins) fun _ =>
    Judgement.pure _ fun targets returned => ?_
  have first : clauses.Follows (fun _ => reach = .written) (JoinBrings c.layer reach joined) reach
      qualified := qualify_follows c (fun written _ => written) scope clauses qualified returned
  refine first.trans (foldl_addTo_follows _ (fun j member => ⟨?_, ?_⟩) _ _)
  · exact .inl ⟨j.target, targets j member, rfl⟩
  · exact fun x found mention mentions => .inr ⟨j, declared j member, x, found, mentions⟩

theorem joinClauses_follows (joins : JoinsNested c reach joined nested) (leaves : LeavesDeclared c.layer nested)
    (sound : find.Sound c.layer) (parent : Scope) (clauses : Clauses) :
    (joining joined).holds (c.joinClauses find nested parent clauses) fun r =>
      clauses.Follows (fun _ => reach = .written) (JoinBrings c.layer reach joined) reach r.1 := by
  let J := joining joined
  unfold joinClauses
  simp only [partition_eq_filter_filter]
  refine J.bind (joinSource_alike (fun _ => reach = .written) (JoinBrings c.layer reach joined) reach _ (joins []) _)
    fun source =>
    J.bind recording_lift fun scope =>
    Judgement.Records.bind (joinNested_leaves leaves scope _) (joinNested_follows joins scope _)
      fun asked declared => Judgement.Records.bind always_lift recording_lift
      fun found returned => ?_
  obtain ⟨kept, foundDeclared⟩ := sound _ _ found returned
  have owned : ∀ j ∈ (asked.2 ++ found.2).filter fun j =>
      scope.fields.any fun f => f.qualifier == j.owner, j.Declared c.layer :=
    fun j member => (forall_mem_append.mpr ⟨declared, foundDeclared⟩) j (mem_of_mem_filter member)
  have ownedFollows : J.holds (c.joinOwned scope _ found.1)
      (found.1.Follows (fun _ => reach = .written) (JoinBrings c.layer reach joined) reach) :=
    joinOwned_follows owned scope found.1
  refine J.bind ownedFollows fun clauses' => J.pure ?_
  intro last _ second _ first
  have start : clauses.Follows (fun _ => reach = .written) (JoinBrings c.layer reach joined) reach
      { clauses with select := { clauses.select with source } } :=
    ⟨first, Change.queries_refl _, rfl, Change.queries_refl _⟩
  exact start.trans (second.trans ((kept _ _ reach).trans last))

theorem joinBody_alike (joins : JoinsNested c reach joined nested)
    (leaves : LeavesDeclared c.layer nested) (sound : find.Sound c.layer) (parent : Scope) :
    ∀ (orderBy : List (OrderItem Query)) (b : Body Query),
      (joining joined).holds (c.joinBody find nested parent orderBy b) fun r =>
        b.Alike (joinChange c.layer reach joined) reach
          (Query.Follows (joinChange c.layer reach joined) reach) r.1 ∧
        (joinChange c.layer reach joined).Queries reach
          (Query.Follows (joinChange c.layer reach joined) reach) (orderQueries orderBy)
          (orderQueries r.2.1)
  | orderBy, .select s => by
    let J := joining joined
    rw [joinBody]
    refine J.bind (joinClauses_follows joins leaves sound parent _) fun r => J.pure fun follows => ?_
    refine ⟨⟨follows.source.mentions, (follows.source.inner.append follows.clauses).append ?_⟩, follows.order⟩
    rw [follows.others]
    exact (Change.queries_refl _).aside reach
  | orderBy, .query q => by
    let J := joining joined
    rw [joinBody]
    refine J.bind (joins parent q) fun r => J.pure fun follows => ?_
    exact ⟨⟨.nil, .single follows⟩, Change.queries_refl _⟩
  | orderBy, .setOp word left right => by
    let J := joining joined
    rw [joinBody]
    refine J.bind (joinBody_alike joins leaves sound parent [] left) fun first =>
      J.bind (joinBody_alike joins leaves sound parent [] right) fun second =>
      J.pure ?_
    rintro ⟨later, _⟩ ⟨earlier, _⟩
    exact ⟨⟨earlier.mentions.append later.mentions, earlier.inner.append later.inner⟩, Change.queries_refl _⟩
  | orderBy, .values _ _ | orderBy, .table _ | orderBy, .write _ =>
    (joining joined).pure ⟨⟨Change.mentions_refl _, Change.queries_refl _⟩, Change.queries_refl _⟩

theorem joinQueryUpTo_alike (sound : find.Sound c.layer) (n : Nat)
    (joins : JoinsNested c reach joined (c.joinQueryUpTo find n)) (parent : Scope) (q : Query) :
    (joining joined).holds (c.joinQueryUpTo find (n + 1) parent q) fun r =>
      q.Alike (joinChange c.layer reach joined) reach (Query.Follows (joinChange c.layer reach joined) reach) r.1 := by
  let J := joining joined
  have entry : ∀ cte, J.holds (joinEntry (c.joinQueryUpTo find n) parent cte) fun r =>
      r.1.name = cte.name ∧ cte.query.Follows (joinChange c.layer reach joined) reach r.1.query :=
    fun cte => J.bind (joins parent cte.query) fun r => J.pure fun follows => ⟨rfl, follows⟩
  rw [joinQueryUpTo, joinQueryWith]
  refine J.bind (J.mapM entry q.ctes) fun ctes =>
    J.bind (joinBody_alike joins (joinQueryUpTo_leaves allows_always sound.finds n) sound parent q.orderBy q.body)
    fun body => J.pure ?_
  rintro ⟨bodies, ordered⟩ entries
  refine ⟨rfl, ?_, bodies.mentions, (bodies.inner.append ordered).append (Change.queries_refl _)⟩
  exact forall₂_map_right_iff.mpr entries

theorem joinQueryUpTo_follows (sound : find.Sound c.layer) : ∀ n, JoinsNested c reach joined (c.joinQueryUpTo find n)
  | 0 => fun _ q => (joining joined).pure (.refl _ _ reach q)
  | n + 1 => fun parent q => (joining joined).mono
    (joinQueryUpTo_alike sound n (joinQueryUpTo_follows sound n) parent q) fun _ alike => alike.follows

theorem joinQuery_eq_ok {q q' : Query} {targets : List String} (joins : c.joinQuery find q = .ok (q', targets)) :
    (c.joinQueryUpTo find q.height [] q).run [] = .ok ((q', []), targets) := by
  unfold joinQuery at joins
  obtain ⟨⟨⟨joined, escaped⟩, state⟩, run, rest⟩ := bind_eq_ok_iff.mp joins
  cases escaped with
  | nil =>
    cases rest
    exact run
  | cons j others => cases rest

/-- Joining keeps what a query and each of its entries mention, and adds the joined models. -/
theorem joinQuery_alike (sound : find.Sound c.layer) (reach : Reach) {q q' : Query}
    {targets : List String} (joins : c.joinQuery find q = .ok (q', targets)) :
    q.Alike (joinChange c.layer reach (· ∈ targets)) reach
      (Query.Follows (joinChange c.layer reach (· ∈ targets)) reach) q' := by
  obtain ⟨n, height⟩ := Query.exists_succ (Nat.le_refl q.height)
  have run := joinQuery_eq_ok joins
  rw [height] at run
  exact Judgement.recording_run (p := fun joined (r : Query × List RelatedJoin) =>
      q.Alike (joinChange c.layer reach joined) reach (Query.Follows (joinChange c.layer reach joined) reach) r.1)
    (fun _ => joinQueryUpTo_alike sound n (joinQueryUpTo_follows sound n) [] q) run

end Follows

theorem flatMap_eq_of_forall₂ {α β γ : Type} {f : α → List γ} {g : β → List γ} {l : List α}
    {l' : List β} (h : Forall₂ (fun a b => g b = f a) l l') : l'.flatMap g = l.flatMap f := by
  induction h with
  | nil => rfl
  | cons first _ ih => rw [flatMap_cons, flatMap_cons, first, ih]

end Context

/-- Notes a join, unless one of its name is there. -/
def RelatedJoin.note (j : RelatedJoin) (joins : List RelatedJoin) : List RelatedJoin :=
  if joins.any (·.label == j.label) then joins else joins ++ [j]

theorem RelatedJoin.note_cases (j : RelatedJoin) (joins : List RelatedJoin) :
    j.note joins = joins ∧ (∃ o ∈ joins, o.label = j.label) ∨ j.note joins = joins ++ [j] := by
  unfold note
  split
  · rename_i noted
    exact .inl ⟨rfl, by simpa using noted⟩
  · exact .inr rfl

/-- A dotted name stays, or it goes through a relationship and becomes a column of the model that is joined. -/
theorem dereference_eq_ok {l : Layer} {s : Scope} {parts : Path} {joins joins' : List RelatedJoin} {e : Expr Query}
    (run : dereference l s parts joins = .ok (e, joins')) :
    (∀ f rest, s.reference parts.values ≠ .ok (.through f rest)) ∧ e = .path parts ∧ joins' = joins ∨
    ∃ f column j m, s.reference parts.values = .ok (.through f [column]) ∧ RelatedJoin.ofField l f = .ok j ∧
      l.model? j.target = some m ∧ e = .path [.ofName j.label, .ofName column] ∧ joins' = j.note joins := by
  change (dereference l s parts).run joins = _ at run
  rw [dereference_eq, run_lift_bind] at run
  obtain ⟨reference, meaning, run⟩ := bind_eq_ok_iff.mp run
  rw [meaning]
  split at run
  · cases run
    exact .inl ⟨fun _ _ => nofun, rfl, rfl⟩
  · cases run
    exact .inl ⟨fun _ _ => nofun, rfl, rfl⟩
  · rename_i f _
    unfold columnThrough at run
    split at run
    · rename_i column
      rw [run_lift_bind] at run
      obtain ⟨j, asked, run⟩ := bind_eq_ok_iff.mp run
      split at run
      · rename_i m model
        split at run
        · split at run
          · cases run
          · cases run
            exact .inr ⟨f, column, j, m, rfl, asked, model, rfl, rfl⟩
        · cases run
      · cases run
    · cases run

namespace Context

section Finders

variable (l : Layer)

section Dereferencing

variable {l} {p : RelatedJoin → Prop}
  (asked : ∀ field j m, RelatedJoin.ofField l field = .ok j → l.model? j.target = some m → p j)

include asked

theorem dereference_flat (scope : Scope) (parts : Path) :
    (returns.keeping fun joins : List RelatedJoin => ∀ j ∈ joins, p j).holds
      (dereference l scope parts) fun e => e.queries = [] := by
  intro joins r run kept
  rcases dereference_eq_ok run with ⟨_, same, left⟩ | ⟨f, column, j, m, _, ok, model, same, noted⟩ <;> rw [same]
  · exact ⟨left ▸ kept, rfl⟩
  · refine ⟨?_, rfl⟩
    rw [noted]
    rcases j.note_cases joins with ⟨old, _⟩ | new
    · rwa [old]
    · rw [new]
      exact forall_mem_append.mpr ⟨kept, forall_mem_singleton.mpr (asked f j m ok model)⟩

theorem dereferences_follows (clauses : Clauses) (scope : Scope) : returns.holds (dereferences l clauses scope) fun r =>
      (∀ gone new reach, clauses.Follows gone new reach r.1) ∧ ∀ j ∈ r.2, p j := by
  intro r found
  have flat : ∀ gone new reach, Expr.Walk.Flat
      (returns.keeping fun joins : List RelatedJoin => ∀ j ∈ joins, p j)
      { Expr.Walk.keep (StateT (List RelatedJoin) (Except CompileError)) Query with
        path := dereference l scope }
      (Query.Follows (.upTo gone new) reach) := fun gone new reach =>
    ⟨fun _ => Judgement.pure _ rfl, dereference_flat asked scope, fun q => Judgement.pure _ (.refl gone new reach q)⟩
  have walked := fun gone new reach =>
    Clauses.walk_follows (flat gone new reach) clauses [] r found (by simp)
  exact ⟨fun gone new reach => (walked gone new reach).2, (walked (fun _ => True) (fun _ => True) .written).1⟩

end Dereferencing

theorem dereferences_sound : (dereferences l).Sound l :=
  dereferences_follows fun field _ _ ok _ => ⟨field, ok⟩

theorem dereferences_finds_models : (dereferences l).Finds fun j => (l.model? j.target).isSome := by
  intro clauses scope r found
  refine (dereferences_follows (fun _ j m _ model => ?_) clauses scope r found).2
  rw [model]
  rfl

theorem groupKeyJoins_sound : (groupKeyJoins l).Sound l := by
  intro clauses scope
  refine returns.mono (groupKeyJoins_expands l clauses scope) ?_
  rintro ⟨_, joins⟩ (⟨_, _, same⟩ | ⟨keys, modifiers, keys', grouped, done, rfl⟩)
  · cases same
    exact ⟨fun gone new reach => .refl gone new reach clauses, by simp⟩
  · refine ⟨fun gone new reach => ⟨fromItems_refl _, ?_, rfl, Change.queries_refl _⟩, done.declared⟩
    simp only [Select.clauseQueries, grouped, GroupBy.queries, done.queries]
    exact Change.queries_refl _

end Finders

end Context

end SemanticLayer
