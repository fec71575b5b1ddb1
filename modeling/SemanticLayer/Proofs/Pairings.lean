import SemanticLayer.Proofs.Joined
import SemanticLayer.Proofs.Outlines
import SemanticLayer.Proofs.Unchanged

/-! # What joining does to each SELECT

A query and the joined query are paired SELECT by SELECT. The FROM items of a SELECT are kept and get further joins,
its clauses are written over place by place, and the joins are those that its own names and the queries nested in it ask
for. Main statement: `Context.joinQuery_paired`, for every finder of joins that follows a rule.
-/

namespace SemanticLayer

open Sql List
open Judgement (always always_lift returns returns_bind returns_seq)

variable {parent : Scope} {q' : Query} {a a' : Clauses}

namespace Sql

/-- Bodies paired SELECT by SELECT, each with the ORDER BY of its query. -/
inductive Body.Paired (select : Clauses → Clauses → Prop) (related : Query → Query → Prop) :
    List (OrderItem Query) → Body Query → List (OrderItem Query) → Body Query → Prop
  | select {o o' : List (OrderItem Query)} {s s' : Select Query} :
      select ⟨s, o⟩ ⟨s', o'⟩ → Paired select related o (.select s) o' (.select s')
  | query {o : List (OrderItem Query)} {q q' : Query} : related q q' → Paired select related o (.query q) o (.query q')
  | setOp {o : List (OrderItem Query)} {word : String} {left left' right right' : Body Query} :
      Paired select related [] left [] left' → Paired select related [] right [] right' →
      Paired select related o (.setOp word left right) o (.setOp word left' right')
  | values {o : List (OrderItem Query)} {rows : List (List (Expr Query))} {explicitRow : Bool} :
      Paired select related o (.values rows explicitRow) o (.values rows explicitRow)
  | table {o : List (OrderItem Query)} {name : String} : Paired select related o (.table name) o (.table name)
  | write {o : List (OrderItem Query)} {w : Write Query} : Paired select related o (.write w) o (.write w)

/-- Queries paired SELECT by SELECT, at every depth. A step says how two SELECTs are paired, given how the queries in
them are: these are paired again, each in the scope around it. -/
inductive Query.Paired (step : (Scope → Query → Query → Prop) → Scope → Clauses → Clauses → Prop) :
    Scope → Query → Query → Prop
  | mk {parent : Scope} {q q' : Query} (related : Scope → Query → Query → Prop)
      (inside : ∀ s x x', related s x x' → Query.Paired step s x x')
      (entries : Forall₂ (fun cte cte' => related parent cte.query cte'.query ∧
        cte' = { cte with query := cte'.query }) q.ctes q'.ctes)
      (body : Body.Paired (step related parent) (related parent) q.orderBy q.body q'.orderBy q'.body)
      (rest : q' = { q with ctes := q'.ctes, body := q'.body, orderBy := q'.orderBy }) : Query.Paired step parent q q'

theorem Body.Paired.mono {select select' : Clauses → Clauses → Prop} {related : Query → Query → Prop}
    {o o' : List (OrderItem Query)} {b b' : Body Query} (paired : Body.Paired select related o b o' b')
    (weaker : ∀ a a', select a a' → select' a a') : Body.Paired select' related o b o' b' := by
  induction paired with
  | select h => exact .select (weaker _ _ h)
  | query h => exact .query h
  | setOp _ _ left right => exact .setOp left right
  | values => exact .values
  | table => exact .table
  | write => exact .write

theorem Query.Paired.mono {step step' : (Scope → Query → Query → Prop) → Scope → Clauses → Clauses → Prop}
    (weaker : ∀ R parent a a', step R parent a a' → step' R parent a a') {q : Query}
    (paired : Query.Paired step parent q q') : Query.Paired step' parent q q' := by
  induction paired with
  | mk related _ entries body rest ih => exact .mk related ih entries (body.mono (weaker related _)) rest

theorem Clauses.inner_written (a : Clauses) : a.inner .written = a.select.source.flatMap FromItem.queries := by
  unfold Clauses.inner
  congr 1
  funext item
  rw [FromItem.inner, FromItem.queries, Relation.inner_written, Join.innerAll_written]

/-- A name stays, or it was bare and is written with a relation. -/
def Path.Qualified (name name' : Path) : Prop :=
  name' = name ∨ ∃ bare relation, name = [bare] ∧ name' = [relation, bare]

end Sql

/-- Computations that add to a list. What they add is of a kind, and results are judged against all that is in the list
in the end. -/
def Judgement.collecting {m : Type → Type} [Monad m] [LawfulMonad m] {O : Type} (J : Judgement m)
    (good final : O → Prop) : Judgement (StateT (List O) m) where
  holds x p := ∀ s, J.holds (x s) fun r =>
    s ⊆ r.2 ∧ (∀ o ∈ r.2, o ∈ s ∨ good o) ∧ ((∀ o ∈ r.2, final o) → p r.1)
  pure h s := J.pure ⟨Subset.refl s, fun _ => .inl, fun _ => h⟩
  bind {α β x f p q} h hf s := by
    refine J.bind (h s) fun r => J.mono (hf r.1 r.2) ?_
    rintro r' ⟨kept', fresh', later⟩ ⟨kept, fresh, first⟩
    refine ⟨Subset.trans kept kept', fun o member => ?_,
      fun all => later all (first fun o member => all o (kept' member))⟩
    rcases fresh' o member with old | new
    · exact fresh o old
    · exact .inr new
  and hp hq s := by
    refine J.mono (J.and (hp s) (hq s)) ?_
    rintro r ⟨⟨kept, fresh, first⟩, _, _, second⟩
    exact ⟨kept, fresh, fun all => ⟨first all, second all⟩⟩

section Gathering

variable {m : Type → Type} [Monad m] [LawfulMonad m] {J : Judgement m} {O α β : Type} {good final : O → Prop}
  {q : β → Prop}

theorem Judgement.collecting_lift_bind {x : m α} {f : α → StateT (List O) m β} {p : α → Prop} (h : J.holds x p)
    (hf : ∀ a s, J.holds (f a s) fun r => p a → s ⊆ r.2 ∧ (∀ o ∈ r.2, o ∈ s ∨ good o) ∧ ((∀ o ∈ r.2, final o) → q r.1)) :
    (J.collecting good final).holds (liftM x >>= f) q :=
  fun s => Judgement.lift_bind h fun a => hf a s

/-- What is judged against any final list holds of the list that is there in the end. -/
theorem Judgement.collecting_run {x : StateT (List O) m α} {p : (O → Prop) → α → Prop}
    (all : ∀ {β : Type} {y : m β} {q : (O → Prop) → β → Prop}, (∀ final, J.holds y (q final)) →
      J.holds y fun b => ∀ final, q final b) (h : ∀ final, (J.collecting good final).holds x (p final)) :
    J.holds (x.run []) fun r => (∀ o ∈ r.2, good o) ∧ p (· ∈ r.2) r.1 := by
  refine J.mono (all fun final => h final []) fun r h => ⟨fun o member => ?_, (h (· ∈ r.2)).2.2 fun _ => id⟩
  exact ((h fun _ => True).2.1 o member).resolve_left (by simp)

end Gathering

section Collecting

def Field.joinLabel (f : Field) : String := f.qualifier ++ "_" ++ f.name

/-- The join that a relationship column asks for. It leads to a model. -/
structure RelatedJoin.Answers (l : Layer) (f : Field) (j : RelatedJoin) : Prop where
  asked : RelatedJoin.ofField l f = .ok j
  model : (l.model? j.target).isSome

/-- Joins for relationship columns: each one is asked for by a column that is used, and the columns that are surely used
get theirs. -/
structure Collects (l : Layer) (uses sure : Field → Prop) (joins : List RelatedJoin) : Prop where
  sound : ∀ j ∈ joins, ∃ f, uses f ∧ j.Answers l f
  complete : ∀ f, sure f → ∃ j ∈ joins, j.Answers l f

variable {l : Layer} {uses uses' sure sure' : Field → Prop} {joins joins' : List RelatedJoin}

theorem RelatedJoin.Answers.names {f : Field} {j : RelatedJoin} (answers : j.Answers l f) :
    j.owner = f.qualifier ∧ j.label = f.joinLabel := by
  have asked := answers.asked
  rcases RelatedJoin.ofField_cases l f with ⟨e, failed, _⟩ | ⟨_, _, _, _, _, _, _, _, made⟩
  · rw [failed] at asked
    cases asked
  · rw [made] at asked
    cases asked
    exact ⟨rfl, rfl⟩

theorem Collects.append (first : Collects l uses sure joins) (second : Collects l uses' sure' joins') :
    Collects l (fun f => uses f ∨ uses' f) (fun f => sure f ∨ sure' f) (joins ++ joins') := by
  constructor <;> grind [Collects]

theorem Collects.imp (collects : Collects l uses sure joins) (weaker : ∀ f, uses f → uses' f)
    (stronger : ∀ f, sure' f → sure f) : Collects l uses' sure' joins :=
  ⟨fun j member => (collects.sound j member).imp fun f => .imp_left (weaker f),
    fun f used => collects.complete f (stronger f used)⟩

theorem Collects.filter (collects : Collects l uses sure joins) {p : RelatedJoin → Bool} {P : Field → Prop}
    (chosen : ∀ f j, j.Answers l f → (p j = true ↔ P f)) :
    Collects l (fun f => uses f ∧ P f) (fun f => sure f ∧ P f) (joins.filter p) := by
  constructor <;> grind [Collects]

theorem Collects.flatMap {α β : Type} {usesBy sureBy : α → Field → Prop} {f : β → List RelatedJoin} {as : List α}
    {bs : List β} (each : Forall₂ (fun a b => Collects l (usesBy a) (sureBy a) (f b)) as bs) :
    Collects l (fun g => ∃ a ∈ as, usesBy a g) (fun g => ∃ a ∈ as, sureBy a g) (bs.flatMap f) := by
  constructor
  · intro j member
    obtain ⟨b, listed, member⟩ := mem_flatMap.mp member
    obtain ⟨a, listed', collects⟩ := forall₂_exists each.flip b listed
    obtain ⟨g, used, answers⟩ := collects.sound j member
    exact ⟨g, ⟨a, listed', used⟩, answers⟩
  · rintro g ⟨a, listed, used⟩
    obtain ⟨b, listed', collects⟩ := forall₂_exists each a listed
    obtain ⟨j, member, answers⟩ := collects.complete g used
    exact ⟨j, mem_flatMap.mpr ⟨b, listed', member⟩, answers⟩

end Collecting

/-- What a finder of joins does with a SELECT: which relationship columns it uses for the names there, what it puts in
the place of names, and whether it adds group keys. Names may be qualified afterwards. -/
structure JoinRule where
  /-- The columns that may be used. -/
  uses : Scope → List Path → Field → Prop
  /-- The columns that are used for sure. -/
  sure : Scope → List Path → Field → Prop
  renamed : Scope → Path → Path → Prop
  qualified : ∀ {s : Scope} {name name' name'' : Path},
    renamed s name name' → name'.Qualified name'' → renamed s name name''
  addsKeys : Prop

/-- A finder of joins follows a rule. -/
def JoinRule.Describes (rule : JoinRule) (l : Layer) (find : JoinFinder) : Prop :=
  ∀ a s, returns.holds (find a s) fun r =>
    r.1.select.source = a.select.source ∧ a.Over rule.addsKeys (Expr.Over (rule.renamed s) Eq) r.1 ∧
      Collects l (rule.uses s (a.names .written)) (rule.sure s (a.names .written)) r.2

def Frame.Owns (frame : Frame) (name : String) : Prop := ∃ f ∈ frame.fields, f.qualifier = name

def Clauses.spreadFor (joins : List RelatedJoin) (a : Clauses) : Clauses :=
  if joins.isEmpty then a else a.spread (a.select.source.flatMap relationNames)

theorem Clauses.Over.spreadFor {added : Prop} {r : Expr Query → Expr Query → Prop} (outlined : a.Over added r a')
    (named : a'.select.source.flatMap relationNames = a.select.source.flatMap relationNames)
    (joins : List RelatedJoin) : (a.spreadFor joins).Over added r (a'.spreadFor joins) := by
  unfold Clauses.spreadFor
  rw [named]
  split
  · exact outlined
  · exact outlined.spread _

namespace Context

section Uses

variable (c : Context) (uses : Scope → List Path → Field → Prop)

/-- A relationship column is used in a query, and no SELECT of the query around the use has a relation called like that
of the column. -/
inductive Escapes : Scope → Query → Field → Prop
  | found {parent : Scope} {q : Query} {a : Clauses} {f : Field} : a ∈ q.body.selects q.orderBy →
      uses (c.frame a :: parent) (a.names .written) f → ¬ (c.frame a).Owns f.qualifier → Escapes parent q f
  | nested {parent : Scope} {q x : Query} {a : Clauses} {f : Field} : a ∈ q.body.selects q.orderBy →
      x ∈ a.queries .written → Escapes (c.frame a :: parent) x f → ¬ (c.frame a).Owns f.qualifier → Escapes parent q f
  | operand {parent : Scope} {q x : Query} {f : Field} : x ∈ q.body.operands → Escapes parent x f → Escapes parent q f
  | entry {parent : Scope} {q : Query} {cte : Cte Query} {f : Field} : cte ∈ q.ctes → Escapes parent cte.query f →
      Escapes parent q f

/-- A relationship column is used in the clauses of a SELECT, or escapes from a query there. -/
def Used (s : Scope) (a : Clauses) (f : Field) : Prop :=
  uses s (a.names .written) f ∨ ∃ x ∈ a.queries .written, c.Escapes uses s x f

def EscapesBody (parent : Scope) (orderBy : List (OrderItem Query)) (b : Body Query) (f : Field) : Prop :=
  (∃ a ∈ b.selects orderBy, c.Used uses (c.frame a :: parent) a f ∧ ¬ (c.frame a).Owns f.qualifier) ∨
    ∃ x ∈ b.operands, c.Escapes uses parent x f

variable {c uses}

theorem escapes_iff {q : Query} {f : Field} : c.Escapes uses parent q f ↔
    (∃ cte ∈ q.ctes, c.Escapes uses parent cte.query f) ∨ c.EscapesBody uses parent q.orderBy q.body f := by
  constructor
  · intro escapes
    cases escapes with
    | found member used free => exact .inr (.inl ⟨_, member, .inl used, free⟩)
    | nested member inside escapes free => exact .inr (.inl ⟨_, member, .inr ⟨_, inside, escapes⟩, free⟩)
    | operand member escapes => exact .inr (.inr ⟨_, member, escapes⟩)
    | entry member escapes => exact .inl ⟨_, member, escapes⟩
  · rintro (⟨cte, member, escapes⟩ | ⟨a, member, used | ⟨x, inside, escapes⟩, free⟩ | ⟨x, member, escapes⟩)
    · exact .entry member escapes
    · exact .found member used free
    · exact .nested member inside escapes free
    · exact .operand member escapes

end Uses

section Joining

variable (c : Context) (rule : JoinRule) {find : JoinFinder}

/-- A SELECT and the joined one. The FROM items are kept, with related queries in them, and get the joins; the clauses
are written over; the joins are those for columns of its own relations. -/
structure JoinedBy (related : Scope → Query → Query → Prop) (s : Scope) (kept : List (FromItem Query))
    (joins : List RelatedJoin) (a a' : Clauses) : Prop where
  items : Forall₂ (FromItem.Over (related [])) a.select.source kept
  source : a'.select.source = placeJoins joins kept
  clauses : (a.spreadFor joins).Over rule.addsKeys (Expr.Over (rule.renamed s) (related s)) a'
  collects : Collects c.layer (fun f => c.Used rule.uses s a f ∧ (c.frame a).Owns f.qualifier)
    (fun f => c.Used rule.sure s a f ∧ (c.frame a).Owns f.qualifier) joins

def JoinsSelect (related : Scope → Query → Query → Prop) (parent : Scope) (a a' : Clauses) : Prop :=
  ∃ kept joins, c.JoinedBy rule related (c.frame a :: parent) kept joins a a'

/-- What joining pairs with a query, it may pair with another one as well. -/
def Refines (x x' : Query) : Prop :=
  ∀ s q, Query.Paired (c.JoinsSelect rule) s q x → Query.Paired (c.JoinsSelect rule) s q x'

variable {c rule}

section Qualifying

theorem qualifyWalk_over (scope : Scope) (nearer : Option Scope) (outputs : List String) (e : Expr Query) :
    returns.holds (e.walk (qualifyWalk scope nearer outputs)) (e.Over Path.Qualified Eq) := by
  refine Expr.walk_over (fun _ => rfl) (fun name => ?_) e
    (fun _ _ => returns.pure (Expr.over_path (.inl rfl) rfl)) fun _ _ => returns.pure rfl
  refine returns.mono (qualifyWalk_ident scope nearer outputs name) ?_
  rintro e (⟨rfl, _⟩ | ⟨field, _, rfl⟩)
  · exact .refl (fun _ => .inl rfl) (fun _ => rfl) _
  · exact ⟨Expr.renamed_ident (.inr ⟨name, _, rfl, rfl⟩), rfl⟩

theorem qualified_over {related : Query → Query → Prop} (e e' e'' : Expr Query) (first : e.Over Path.Qualified Eq e')
    (second : e'.Over Eq related e'') : e.Over Path.Qualified related e'' :=
  first.comp second (by rintro _ _ _ h rfl; exact h) (by rintro _ _ _ rfl h; exact h)

theorem JoinsSelect.refine {related : Scope → Query → Query → Prop} {a'' : Clauses}
    (joins : c.JoinsSelect rule related parent a a') (source : a''.select.source = a'.select.source)
    (outlined : a'.Over rule.addsKeys (Expr.Over Path.Qualified (c.Refines rule)) a'') :
    c.JoinsSelect rule (fun s x x'' => ∃ x', related s x x' ∧ c.Refines rule x' x'') parent a a'' := by
  obtain ⟨kept, joins, joined⟩ := joins
  refine ⟨kept, joins, joined.items.imp fun _ _ outlined =>
    ⟨outlined.same, outlined.queries.imp fun _ x' h => ⟨x', h, fun _ _ => id⟩, outlined.named⟩,
    source.trans joined.source, joined.clauses.comp outlined fun _ _ _ first second => ?_, joined.collects⟩
  exact first.comp second (fun _ _ _ => rule.qualified) fun _ x' _ h h' => ⟨x', h, h'⟩

theorem qualifyBody_refines {nested : Scope → Query → Except CompileError Query}
    (visits : ∀ outer q, returns.holds (nested outer q) (c.Refines rule q)) (outer : Scope) :
    ∀ b' : Body Query, returns.holds (c.qualifyBody nested outer b') fun b'' => ∀ related parent o b o',
      Body.Paired (c.JoinsSelect rule related parent) (related parent) o b o' b' →
      Body.Paired (c.JoinsSelect rule (fun s x x'' => ∃ x', related s x x' ∧ c.Refines rule x' x'') parent)
        (fun x x'' => ∃ x', related parent x x' ∧ c.Refines rule x' x'') o b o' b''
  | .select s => by
    rw [qualifyBody]
    refine returns_seq fun nearer => returns_bind
      (Clauses.walkSelect_over fun e _ => qualifyWalk_over outer (some nearer) [] e) fun s₁ named =>
      returns_seq fun inner => returns_bind (Clauses.walkSelect_over fun e _ =>
        e.keep_over fun q _ => visits inner q) fun s₂ visited =>
      returns.pure fun related parent o b o' paired => ?_
    obtain ⟨source, first⟩ := named
    obtain ⟨source', second⟩ := visited
    cases paired with
    | select joins =>
      have outlined : Clauses.Over rule.addsKeys (Expr.Over Path.Qualified (c.Refines rule)) ⟨s, o'⟩ ⟨s₂, o'⟩ :=
        (first (Clauses.order_refl (.refl (fun _ => .inl rfl) fun _ => rfl) o')).comp
          (second (Clauses.order_refl (.refl (fun _ => rfl) fun _ _ _ => id) o')) qualified_over
      exact .select (joins.refine (source'.trans source) outlined)
  | .query q => by
    rw [qualifyBody]
    refine returns_bind (visits outer q) fun q' refines => returns.pure fun _ _ _ _ _ paired => ?_
    cases paired with
    | query h => exact .query ⟨q, h, refines⟩
  | .setOp word left right => by
    rw [qualifyBody]
    refine returns_bind (qualifyBody_refines visits outer left) fun _ first =>
      returns_bind (qualifyBody_refines visits outer right) fun _ second =>
      returns.pure fun related parent _ _ _ paired => ?_
    cases paired with
    | setOp left right => exact .setOp (first _ _ _ _ _ left) (second _ _ _ _ _ right)
  | .values _ _ => returns.pure fun _ _ _ _ _ paired => by cases paired; exact .values
  | .table _ => returns.pure fun _ _ _ _ _ paired => by cases paired; exact .table
  | .write _ => returns.pure fun _ _ _ _ _ paired => by cases paired; exact .write

theorem qualifyCorrelatedUpTo_refines : ∀ (n : Nat) (outer : Scope) (q : Query),
    returns.holds (c.qualifyCorrelatedUpTo n outer q) (c.Refines rule q)
  | 0, _, _ => returns.pure fun _ _ => id
  | n + 1, outer, q => by
    rw [qualifyCorrelatedUpTo]
    refine returns_bind (qualifyBody_refines (qualifyCorrelatedUpTo_refines n) outer q.body)
      fun body refines => returns.pure fun s q₀ paired => ?_
    cases paired with
    | mk related inside entries paired rest =>
      refine .mk (fun s x x'' => ∃ x', related s x x' ∧ c.Refines rule x' x'') ?_ ?_ (refines _ _ _ _ _ paired) ?_
      · rintro s x x'' ⟨x', h, h'⟩
        exact h' s x (inside s x x' h)
      · exact entries.imp fun _ cte' h => ⟨⟨cte'.query, h.1, fun _ _ => id⟩, h.2⟩
      · rw [rest]

/-- Qualifying writes the clauses over, with the first wildcard written out. -/
theorem qualify_over (scope : Scope) (a : Clauses) : returns.holds (c.qualify scope a) fun b =>
    b.select.source = a.select.source ∧ (a.spread (a.select.source.flatMap relationNames)).Over rule.addsKeys
      (Expr.Over Path.Qualified (c.Refines rule)) b := by
  have nested : ∀ q, returns.holds (c.qualifyCorrelated scope q) (c.Refines rule q) :=
    fun q => qualifyCorrelatedUpTo_refines q.height scope q
  unfold qualify
  refine returns_bind (Clauses.walkSelect_over fun e _ => qualifyWalk_over scope none [] e) fun s₁ ⟨source, first⟩ =>
    returns_bind (Clauses.walkOrder_over fun item _ => qualifyWalk_over scope none _ item.expr)
    fun orderBy order =>
    returns_bind (Clauses.walkSelect_over fun e _ => e.keep_over fun q _ => nested q)
    fun s₂ ⟨source', second⟩ => returns.pure ?_
  -- The queries in ORDER BY are left as they are.
  have outlined : Clauses.Over rule.addsKeys (Expr.Over Path.Qualified (c.Refines rule)) a ⟨s₂, orderBy⟩ :=
    (first order).comp (second (Clauses.order_refl (.refl (fun _ => rfl) fun _ _ _ => id) orderBy)) qualified_over
  refine ⟨source'.trans source, ?_⟩
  rw [← source, ← source']
  exact outlined.spread (s₂.source.flatMap relationNames)

end Qualifying

/-- What joining makes of a query: its SELECTs are paired, and the joins for the columns that escape are left. -/
structure JoinsQuery (c : Context) (rule : JoinRule) (parent : Scope) (q : Query) (r : Query × List RelatedJoin) :
    Prop where
  paired : Query.Paired (c.JoinsSelect rule) parent q r.1
  left : Collects c.layer (c.Escapes rule.uses parent q) (c.Escapes rule.sure parent q) r.2

section Steps

variable {find : JoinFinder} {nested : Scope → Query → Joiner (Query × List RelatedJoin)} {n : Nat}
  (visits : ∀ s x, always.holds (nested s x) fun r => x.height ≤ n → c.JoinsQuery rule s x r)

include visits

theorem joinSource_over (source : List (FromItem Query)) (low : ∀ x ∈ source.flatMap FromItem.queries, x.height ≤ n) :
    always.holds (joinSource nested source)
      (Forall₂ (FromItem.Over (Query.Paired (c.JoinsSelect rule) [])) source) := by
  have item : ∀ item : FromItem Query, always.holds (item.walk
      { Expr.Walk.keep Joiner Query with query := fun q => do return (← nested [] q).1 } pure)
      (item.Over fun x x' => x.height ≤ n → Query.Paired (c.JoinsSelect rule) [] x x') :=
    FromItem.keep_over fun q => always.bind (visits [] q) fun r =>
      always.pure fun h low => (h low).paired
  refine always.mono (always.mapM item source) fun source' pairs => ?_
  refine forall₂_of_mem pairs fun item member item' outlined => ⟨outlined.same, ?_, outlined.named⟩
  exact forall₂_of_mem outlined.queries fun x inside x' paired =>
    paired (low x (mem_flatMap.mpr ⟨item, member, inside⟩))

theorem joinNested_over (s : Scope) (a : Clauses) (low : ∀ x ∈ a.queries .written, x.height ≤ n) :
    always.holds (joinNested nested s a) fun r => r.1.select.source = a.select.source ∧
      a.Over False (Expr.Over Eq (Query.Paired (c.JoinsSelect rule) s)) r.1 ∧
      Collects c.layer (fun f => ∃ x ∈ a.queries .written, c.Escapes rule.uses s x f)
        (fun f => ∃ x ∈ a.queries .written, c.Escapes rule.sure s x f) r.2 := by
  have walked : ∀ final : RelatedJoin → Prop, (always.collecting (fun j : RelatedJoin =>
      ∃ f, (∃ x ∈ a.queries .written, c.Escapes rule.uses s x f) ∧ j.Answers c.layer f) final).holds
      (a.walk (nestedWalk nested s)) fun a' => a'.select.source = a.select.source ∧
        a.Over False (Expr.Over Eq fun x x' => Query.Paired (c.JoinsSelect rule) s x x' ∧
          ∀ f, c.Escapes rule.sure s x f → ∃ j, final j ∧ j.Answers c.layer f) a' := by
    intro final
    refine Judgement.mono _ (Clauses.walk_over a fun e member => Expr.keep_over e fun x inside => ?_)
      fun _ h => ⟨h.1, h.2⟩
    have listed : x ∈ a.queries .written := mem_flatMap.mpr ⟨e, member, inside⟩
    refine Judgement.collecting_lift_bind (visits s x) fun r before => always.pure fun joins => ?_
    obtain ⟨paired, left⟩ := joins (low x listed)
    refine ⟨subset_append_left _ _, fun j member => (mem_append.mp member).imp_right fun new => ?_,
      fun all => ⟨paired, fun f escapes => ?_⟩⟩
    · obtain ⟨f, escapes, answers⟩ := left.sound j new
      exact ⟨f, ⟨x, listed, escapes⟩, answers⟩
    · obtain ⟨j, new, answers⟩ := left.complete f escapes
      exact ⟨j, all j (mem_append_right _ new), answers⟩
  refine always.mono (Judgement.collecting_run (fun h s b s' returned final => h final s b s' returned) walked)
    fun r ⟨sound, source, outlined⟩ => ⟨source, ?_, sound, ?_⟩
  · refine outlined.comp (.refl (fun _ => rfl) _) ?_
    rintro e e' _ h rfl
    exact ⟨⟨h.names, h.queries.imp fun _ _ h => h.1⟩, h.same⟩
  · rintro f ⟨x, member, escapes⟩
    obtain ⟨x', _, _, complete⟩ := forall₂_exists (rel_flatMap outlined.exprs fun _ _ h => h.queries) x member
    exact complete f escapes

omit visits in
theorem joinOwned_over (rule : JoinRule) (scope : Scope) (joins : List RelatedJoin) (a : Clauses) :
    always.holds (c.joinOwned scope joins a) fun b => b.select.source = placeJoins joins a.select.source ∧
      (a.spreadFor joins).Over rule.addsKeys (Expr.Over Path.Qualified (c.Refines rule)) b := by
  cases joins with
  | nil => exact always.pure ⟨rfl, .refl (.refl (fun _ => .inl rfl) fun _ _ _ => id) a⟩
  | cons j joins =>
    refine always.bind always_lift fun b => Judgement.always_bind fun _ =>
      always.pure fun returned => ?_
    obtain ⟨source, outlined⟩ := qualify_over scope a b returned
    rw [foldl_addTo_eq_place]
    exact ⟨congrArg (placeJoins (j :: joins)) source, outlined.places, outlined.rest⟩

theorem joinClauses_over (describes : rule.Describes c.layer find) (parent : Scope) (a : Clauses)
    (low : ∀ x, x ∈ a.queries .written ∨ x ∈ a.select.source.flatMap FromItem.queries → x.height ≤ n) :
    always.holds (c.joinClauses find nested parent a) fun r =>
      c.JoinsSelect rule (Query.Paired (c.JoinsSelect rule)) parent a r.1 ∧
        Collects c.layer (fun f => c.Used rule.uses (c.frame a :: parent) a f ∧ ¬ (c.frame a).Owns f.qualifier)
          (fun f => c.Used rule.sure (c.frame a :: parent) a f ∧ ¬ (c.frame a).Owns f.qualifier) r.2 := by
  let J : Judgement Joiner := always
  unfold joinClauses
  simp only [partition_eq_filter_filter]
  refine J.bind (J.and (joinSource_over visits a.select.source fun x member => low x (.inr member))
    (joinSource_alone c (fun _ _ _ _ _ => trivial) a.select.source)) fun source =>
    J.bind always_lift fun scope =>
    J.bind (joinNested_over visits scope _ fun x member => low x (.inl member)) fun asked =>
    J.bind always_lift fun found => J.bind (joinOwned_over rule scope _ found.1) fun last => J.pure ?_
  rintro ⟨lastSource, lastOver⟩ returned ⟨nestedSource, nestedOver, asks⟩ scoping ⟨items, alone⟩
  obtain ⟨foundSource, foundOver, finds⟩ := describes _ _ found returned
  obtain rfl : scope = c.frame a :: parent := by
    rw [sourceScope_eq scoping, frame, alone.fields]
  have names : asked.1.names .written = a.names .written := by
    refine flatMap_eq_of_forall₂ (l := a.exprs .written) (nestedOver.exprs.imp fun _ _ h => ?_)
    exact (forall₂_eq_eq_eq ▸ h.names :).symm
  rw [names] at finds
  have owned : ∀ (f : Field) (j : RelatedJoin), j.Answers c.layer f →
      ((Scope.fields (c.frame a :: parent)).any (fun g => g.qualifier == j.owner) = true ↔
        (c.frame a).Owns f.qualifier) := by
    intro f j answers
    simp [Scope.fields, Frame.Owns, answers.names.1]
  have collects : Collects c.layer (c.Used rule.uses _ a) (c.Used rule.sure _ a) (asked.2 ++ found.2) :=
    (asks.append finds).imp (fun _ => Or.symm) fun _ => Or.symm
  rw [foundSource, nestedSource] at lastSource
  refine ⟨⟨source, _, items, lastSource, ?_, collects.filter owned⟩, collects.filter fun f j answers => ?_⟩
  · have first : a.Over rule.addsKeys (Expr.Over Eq (Query.Paired (c.JoinsSelect rule) (c.frame a :: parent)))
        asked.1 := ⟨.of_forall₂ nestedOver.places.forall₂, nestedOver.rest⟩
    have second : a.Over rule.addsKeys (Expr.Over (rule.renamed _) (Query.Paired (c.JoinsSelect rule) _)) found.1 :=
      first.comp foundOver fun _ _ _ h h' => h.comp h' (by rintro _ _ _ rfl h; exact h) (by rintro _ _ _ h rfl; exact h)
    have sameNames : found.1.select.source.flatMap relationNames = a.select.source.flatMap relationNames := by
      rw [foundSource, nestedSource]
      exact flatMap_eq_of_forall₂ (items.imp fun _ _ h => h.relationNames)
    exact (second.spreadFor sameNames _).comp lastOver fun _ _ _ h h' =>
      h.comp h' (fun _ _ _ => rule.qualified) fun _ _ _ h refines => refines _ _ h
  · rw [← owned f j answers]
    simp

theorem joinBody_over (describes : rule.Describes c.layer find) (parent : Scope) :
    ∀ (b : Body Query) (o : List (OrderItem Query)), (∀ a ∈ b.selects o, ∀ x, x ∈ a.queries .written ∨
      x ∈ a.select.source.flatMap FromItem.queries → x.height ≤ n) → (∀ x ∈ b.operands, x.height ≤ n) →
    always.holds (c.joinBody find nested parent o b) fun r => (o = [] → r.2.1 = []) ∧
      Body.Paired (c.JoinsSelect rule (Query.Paired (c.JoinsSelect rule)) parent)
        (Query.Paired (c.JoinsSelect rule) parent) o b r.2.1 r.1 ∧
      Collects c.layer (c.EscapesBody rule.uses parent o b) (c.EscapesBody rule.sure parent o b) r.2.2
  | .select s, o, low, _ => by
    rw [joinBody]
    refine always.bind (joinClauses_over visits describes parent ⟨s, o⟩
      (low _ (mem_singleton.mpr rfl))) fun r => always.pure ?_
    rintro ⟨joins, left⟩
    refine ⟨?_, .select joins, left.imp ?_ ?_⟩
    · rintro rfl
      obtain ⟨kept, owned, joined⟩ := joins
      refine joined.clauses.order_nil ?_
      unfold Clauses.spreadFor
      split <;> rfl
    all_goals simp [EscapesBody, Body.selects, Body.operands]
  | .query q, o, _, low => by
    rw [joinBody]
    refine always.bind (visits parent q) fun r => always.pure fun joins => ?_
    obtain ⟨paired, left⟩ := joins (low q (mem_singleton.mpr rfl))
    refine ⟨id, .query paired, left.imp ?_ ?_⟩ <;> simp [EscapesBody, Body.selects, Body.operands]
  | .setOp word left right, o, low, low' => by
    simp only [Body.selects, Body.operands, mem_append] at low low'
    rw [joinBody]
    refine always.bind (joinBody_over describes parent left [] (fun a member => low a (.inl member))
      fun x member => low' x (.inl member)) fun r => always.bind (joinBody_over describes parent right []
      (fun a member => low a (.inr member)) fun x member => low' x (.inr member)) fun r' => always.pure ?_
    rintro ⟨order', paired', collects'⟩ ⟨order, paired, collects⟩
    rw [order rfl] at paired
    rw [order' rfl] at paired'
    refine ⟨id, .setOp paired paired', (collects.append collects').imp ?_ ?_⟩
    · simp only [EscapesBody, Body.selects, Body.operands, mem_append]
      grind
    · simp only [EscapesBody, Body.selects, Body.operands, mem_append]
      grind
  | .values _ _, _, _, _ =>
    always.pure ⟨id, .values, by simp, by simp [EscapesBody, Body.selects, Body.operands]⟩
  | .table _, _, _, _ => always.pure ⟨id, .table, by simp, by simp [EscapesBody, Body.selects, Body.operands]⟩
  | .write _, _, _, _ => always.pure ⟨id, .write, by simp, by simp [EscapesBody, Body.selects, Body.operands]⟩

end Steps

theorem joinQueryUpTo_over (describes : rule.Describes c.layer find) :
    ∀ (n : Nat) (parent : Scope) (q : Query), always.holds (c.joinQueryUpTo find n parent q) fun r =>
      q.height ≤ n → c.JoinsQuery rule parent q r
  | 0, _, q => always.pure fun low => absurd q.height_pos (by omega)
  | n + 1, parent, q => by
    by_cases low : q.height ≤ n + 1
    · have visits := joinQueryUpTo_over describes n
      have entry : ∀ cte, always.holds (joinEntry (c.joinQueryUpTo find n) parent cte) fun r =>
          cte.query.height ≤ n → c.JoinsQuery rule parent cte.query (r.1.query, r.2) ∧
            r.1 = { cte with query := r.1.query } :=
        fun cte => always.bind (visits parent cte.query) fun r =>
          always.pure fun h low => ⟨h low, rfl⟩
      rw [joinQueryUpTo, joinQueryWith]
      refine always.bind (always.mapM entry q.ctes) fun ctes =>
        always.bind (joinBody_over visits describes parent q.body q.orderBy ?_ ?_) fun r =>
        always.pure ?_
      · intro a member x inside
        rw [← Clauses.inner_written] at inside
        have := Query.height_lt_of_select member inside
        omega
      · intro x member
        have := Query.height_lt_of_operand member
        omega
      · rintro ⟨_, paired, left⟩ entries _
        have joined := forall₂_of_mem entries fun cte member r h =>
          h (by have := Query.height_lt_ctes member; omega)
        refine ⟨.mk _ (fun _ _ _ => id)
          (forall₂_map_right_iff.mpr (joined.imp fun _ _ h => ⟨h.1.paired, h.2⟩)) paired rfl, ?_⟩
        have entryLeft := Collects.flatMap (joined.imp fun _ _ h => h.1.left)
        exact (entryLeft.append left).imp (fun _ => escapes_iff.mpr) fun _ => escapes_iff.mp
    · intro _ _ _ _ low'
      exact absurd low' low

/-- Joining pairs the SELECTs of a query with those of the result, and no column that is surely used escapes. -/
theorem joinQuery_paired (describes : rule.Describes c.layer find) {q : Query}
    {targets : List String} (joins : c.joinQuery find q = .ok (q', targets)) :
    Query.Paired (c.JoinsSelect rule) [] q q' ∧ ∀ f, ¬ c.Escapes rule.sure [] q f := by
  obtain ⟨paired, left⟩ :=
    joinQueryUpTo_over describes q.height [] q [] _ _ (joinQuery_eq_ok joins) (Nat.le_refl _)
  refine ⟨paired, fun f escapes => ?_⟩
  obtain ⟨j, member, _⟩ := left.complete f escapes
  exact not_mem_nil member

end Joining

end Context

end SemanticLayer
