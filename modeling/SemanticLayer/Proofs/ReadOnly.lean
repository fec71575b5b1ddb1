import SemanticLayer.Proofs.JoinRules
import SemanticLayer.Proofs.Substitution

/-! # Compiled texts read only

A text is compiled only if all its statements are queries, and no query in them inserts or updates, however
deep it is nested. Each query of the text is analyzed before anything else is done with it, and an analysis
accepts no body that writes. A `SELECT … INTO` is not recognized as writing, and its INTO clause is carried along.
-/

namespace SemanticLayer

open Sql
open Judgement (always returns returns_bind)

/-- The new tables that the SELECTs of a body put their rows into, as they are written. -/
def Sql.Body.intos : Body Query → List String
  | .select s => s.into.toList
  | .setOp _ left right => left.intos ++ right.intos
  | .query _ | .values _ _ | .table _ | .write _ => []

section Walks

variable {m : Type → Type} [Monad m] [LawfulMonad m] {J : Judgement m}

/-- Nothing is asked of a computation of which nothing is said. -/
def Judgement.Lenient (J : Judgement m) : Prop := ∀ {α : Type} (x : m α), J.holds x fun _ => True

theorem Judgement.Lenient.seq (lenient : J.Lenient) {α β : Type} {x : m α} {f : α → m β} {p : β → Prop}
    (h : ∀ a, J.holds (f a) p) : J.holds (x >>= f) p :=
  J.bind (lenient x) fun a => J.mono (h a) fun _ hb _ => hb

variable (lenient : J.Lenient) (w : Expr.Walk m Query Query) (visit : Relation Query → m (Relation Query))
include lenient

theorem Sql.Select.walk_into (s : Select Query) : J.holds (s.walk w visit) fun s' => s'.into = s.into := by
  unfold Select.walk
  iterate 11 refine lenient.seq fun _ => ?_
  exact J.pure rfl

theorem Sql.Body.walk_intos (b : Body Query) : J.holds (b.walk w visit) fun b' => b'.intos = b.intos := by
  induction b with
  | select s => exact J.bind (s.walk_into lenient w visit) fun s' => J.pure fun same => by rw [intos, intos, same]
  | setOp word left right first second =>
    refine J.bind first fun left' => J.bind second fun right' => J.pure ?_
    intro sameRight sameLeft
    rw [intos, intos, sameLeft, sameRight]
  | query | values | write => exact lenient.seq fun _ => J.pure rfl
  | table => exact J.pure rfl

theorem Sql.Query.walk_intos (q : Query) : J.holds (q.walk w visit) fun q' => q'.body.intos = q.body.intos := by
  unfold Query.walk
  refine lenient.seq fun _ => J.bind (q.body.walk_intos lenient w visit) fun body => ?_
  iterate 3 refine lenient.seq fun _ => ?_
  exact J.pure id

theorem Sql.Query.editAt_intos (e : Edit m) : ∀ (n : Nat) (q : Query),
    J.holds (q.editAt e n) fun q' => q'.body.intos = q.body.intos
  | 0, _ => J.pure rfl
  | _ + 1, q => q.walk_intos lenient _ _

end Walks

section Lenience

variable {ε σ : Type}

theorem Judgement.id_lenient : Judgement.id.Lenient := fun _ => trivial

theorem Judgement.always_lenient : (always (σ := σ) (ε := ε)).Lenient := fun _ _ _ _ _ => trivial

end Lenience

theorem Sql.Body.Paired.intos {select : Clauses → Clauses → Prop} {related : Query → Query → Prop}
    {o o' : List (OrderItem Query)} {b b' : Body Query} (paired : Body.Paired select related o b o' b')
    (same : ∀ a a', select a a' → a'.select.into = a.select.into) : b'.intos = b.intos := by
  induction paired with
  | select h => rw [Body.intos, Body.intos, same _ _ h]
  | setOp _ _ left right => rw [Body.intos, Body.intos, left, right]
  | query | values | table | write => rfl

namespace Context

variable {c : Context}

theorem strip_intos (q : Query) : (c.strip q).body.intos = q.body.intos :=
  Query.editAt_intos Judgement.id_lenient _ _ q

theorem compileModels_intos (q : Query) : returns.holds (c.compileModels q) fun q' => q'.body.intos = q.body.intos := by
  refine returns_bind (addViews_pushed (c.strip q)) fun opened views => Judgement.returns_seq fun a =>
    returns_bind (addModels_added c.layer a.models opened) fun q' models => returns.pure ?_
  rw [(With.sort_reordered q').rest.body, models.1.rest.body, views.1.added.rest.body, strip_intos]

/-- Joining and then adding the joined models, as it is done for relationships and for group keys. -/
theorem compileJoins_intos {rule : JoinRule} {find : JoinFinder} (describes : rule.Describes c.layer find) (q : Query) :
    returns.holds (do
      let (q, targets) ← c.joinQuery find q
      return With.sort (← addModels c.layer targets q)) fun q' => q'.body.intos = q.body.intos := by
  have kept : ∀ {related s kept joins a a'}, c.JoinedBy rule related s kept joins a a' →
      a'.select.into = a.select.into := by
    intro related s kept joins a a' joined
    refine (congrArg Select.into joined.clauses.rest).trans ?_
    unfold Clauses.spreadFor
    split <;> rfl
  have joins : returns.holds _ (c.JoinedAs rule (fun _ _ _ _ _ _ => True) q) :=
    compileJoins_as describes (fun _ _ _ _ _ _ _ => trivial) q
  refine returns.mono joins ?_
  rintro q' ⟨joined, supplied, paired, _⟩
  rw [supplied.rest]
  cases paired with
  | mk related _ _ body _ => exact body.intos fun _ _ ⟨_, _, joined, _⟩ => kept joined

theorem replaceRollups_intos (q : Query) :
    returns.holds (c.replaceRollups q) fun r => r.1.body.intos = q.body.intos := by
  have replaced : ∀ n, always.holds (c.replaceRollupsUpTo n q) fun q' => q'.body.intos = q.body.intos
    | 0 => nofun
    | _ + 1 => q.walk_intos Judgement.always_lenient _ _
  exact fun r returned => replaced _ [] r.1 r.2 returned

theorem compileMetrics_intos (q : Query) :
    returns.holds (c.compileMetrics q) fun q' => q'.body.intos = q.body.intos := by
  intro q' compiled
  obtain ⟨a, rolledUp, q₁, q₂, q₃, run, rfl⟩ := compileMetrics_run q q' compiled
  have pushed : ∀ {fits : String → Query → Prop} {q q' : Query}, With.Pushed c.layer fits q q' → q'.body = q.body :=
    fun pushed => pushed.added.rest.body
  have same : q₂.body.intos = q₁.body.intos := replaceRollups_intos q₁ _ run.replaces
  rw [(With.sort_reordered q₃).rest.body, pushed run.bases, same, pushed run.found]

theorem runStage_intos (stage : Stage) (q : Query) :
    returns.holds (c.runStage stage q) fun q' => q'.body.intos = q.body.intos := by
  cases stage with
  | models => exact compileModels_intos q
  | relationships => exact compileJoins_intos (dereferencing_describes c.layer) q
  | metrics => exact compileMetrics_intos q
  | groupKeys => exact compileJoins_intos (keying_describes c.layer) q

theorem compile_intos {q q' : Query} (compiled : c.compile q = .ok q') : q'.body.intos = q.body.intos := by
  refine Judgement.returns_foldlM (p := fun q' => q'.body.intos = q.body.intos) (fun q₁ stage same => ?_) Stage.all
    q rfl q' compiled
  exact returns.mono (runStage_intos stage q₁) fun q₂ next => next.trans same

theorem compileCached_intos {lookup : CacheLookup} {q : Query} {r : Query × Bool}
    (cached : c.compileCached lookup q = .ok r) : r.1.body.intos = q.body.intos := by
  obtain ⟨used, a, stage, _⟩ := c.compileCached_stage lookup q r cached
  rw [stage.prunes.rest.body]

end Context

theorem Backend.renameFunctions_intos (b : Backend) (q : Query) : (b.renameFunctions q).body.intos = q.body.intos :=
  Query.editAt_intos Judgement.id_lenient _ _ q

/-- The parts that set operations put together, with the set operations themselves. -/
def Sql.Body.parts : Body Query → List (Body Query)
  | .setOp word left right => .setOp word left right :: (left.parts ++ right.parts)
  | b => [b]

/-- A part of a body that only reads: it neither inserts nor updates, and is no bare TABLE. -/
def Sql.Body.OnlyReads : Body Query → Prop
  | .table _ | .write _ => False
  | .select _ | .query _ | .setOp _ _ _ | .values _ _ => True

/-- The new tables that a statement puts rows into, as they are written. -/
def Sql.Statement.intos : Statement → List String
  | .query q => q.body.intos
  | .command _ => []

/-- Nothing in a query that an analysis visits writes. -/
def Sql.Query.OnlyReads (q : Query) : Prop :=
  ∀ x, q.Contains .visited x → ∀ part ∈ x.body.parts, part.OnlyReads

namespace Context

variable {c : Context} {q q' : Query} {b : Backend} {lookup : CacheLookup}

theorem parts_of_accepted {f : Path → Path} {g : Query → Query} {b : Body Query}
    (accepted : c.AcceptsBody (b.mapTables f g)) : ∀ part ∈ b.parts, part.OnlyReads := by
  induction b with
  | setOp word left right first second =>
    rw [Body.mapTables, AcceptsBody] at accepted
    rw [Body.parts]
    refine List.forall_mem_cons.mpr ⟨trivial, List.forall_mem_append.mpr ⟨?_, ?_⟩⟩
    · exact first accepted.1
    · exact second accepted.2
  | select | query | values => exact List.forall_mem_singleton.mpr trivial
  | table | write => exact accepted.elim

theorem analyzed_of_compile (compiled : c.compile q = .ok q') : ∃ a, c.analyze (c.strip q) = .ok a := by
  -- The first stage analyzes the stripped query at once, to look for views.
  cases analyzed : c.analyze (c.strip q) with
  | ok a => exact ⟨a, rfl⟩
  | error e =>
    have views : c.addViews (c.strip q) = .error e := by
      rw [addViews, addViewsUpTo, analyzed]
      rfl
    have models : c.compileModels q = .error e := by
      rw [compileModels, views]
      rfl
    simp only [compile, Stage.all, List.foldlM_cons, runStage, models] at compiled
    cases compiled

theorem onlyReads_of_compile (compiled : c.compile q = .ok q') : q.OnlyReads := by
  intro x contained
  obtain ⟨a, analyzed⟩ := analyzed_of_compile compiled
  rw [strip_eq_mapTables] at analyzed
  have accepted := accepts_of_analyze analyzed ((Query.contains_mapTables _).mpr ⟨x, contained, rfl⟩)
  rw [Accepts, Query.body_mapTables] at accepted
  exact parts_of_accepted accepted.1

/-- A query that only reads is answered by one with the same INTO clauses. -/
structure Answers (q answer : Query) : Prop where
  reads : q.OnlyReads
  intos : answer.body.intos = q.body.intos

/-- A statement is a query, and a text renders its answer. -/
def AnswersText (statement : Statement) (text : String) : Prop :=
  ∃ q answer, statement = .query q ∧ text = answer.render ∧ Answers q answer

theorem compileStatement_answers (statement : Statement) :
    Judgement.returns.holds (c.compileStatement b statement) (AnswersText statement) := by
  cases statement with
  | command text =>
    intro _ returned
    cases returned
  | query q =>
    intro text returned
    unfold compileStatement at returned
    dsimp only at returned
    cases compiled : c.compile q with
    | error e =>
      rw [compiled] at returned
      cases returned
    | ok q' =>
      rw [compiled] at returned
      cases returned
      refine ⟨q, b.renameFunctions q', rfl, rfl, onlyReads_of_compile compiled, ?_⟩
      rw [b.renameFunctions_intos, compile_intos compiled]

theorem compileQueryCached_answers {served : Query}
    (answer : c.compileQueryCached b lookup q = .ok (some served)) : Answers q served := by
  obtain ⟨live, cached, compiled, pointed, rfl⟩ := compileQueryCached_eq_some answer
  refine ⟨onlyReads_of_compile compiled, ?_⟩
  rw [b.renameFunctions_intos, compileCached_intos pointed, compile_intos compiled]

theorem compileAllCached_answers (statements : List Statement) :
    Judgement.returns.holds (c.compileAllCached b lookup statements) fun answer => ∀ texts, answer = some texts →
      List.Forall₂ AnswersText statements texts := by
  fun_induction compileAllCached c b lookup statements with
  | case1 =>
    refine Judgement.returns.pure ?_
    rintro _ ⟨⟩
    exact .nil
  | case2 | case3 =>
    intro _ returned
    cases returned
  | case4 => exact Judgement.returns.pure nofun
  | case5 q rest served answer ih =>
    rintro _ returned texts rfl
    cases others : c.compileAllCached b lookup rest with
    | error e =>
      rw [others] at returned
      cases returned
    | ok more =>
      rw [others] at returned
      cases more with
      | none => cases returned
      | some more =>
        cases returned
        exact .cons ⟨q, served, rfl, rfl, compileQueryCached_answers answer⟩ (ih _ others _ rfl)

theorem queries_of_answersText {statements : List Statement} {texts : List String}
    (answered : List.Forall₂ AnswersText statements texts) :
    ∃ qs answers, statements = qs.map .query ∧ texts = answers.map Query.render ∧ List.Forall₂ Answers qs answers := by
  induction answered with
  | nil => exact ⟨[], [], rfl, rfl, .nil⟩
  | cons first _ ih =>
    obtain ⟨q, answer, rfl, rfl, answered⟩ := first
    obtain ⟨qs, answers, rfl, rfl, rest⟩ := ih
    exact ⟨q :: qs, answer :: answers, rfl, rfl, .cons answered rest⟩

/-- A text that is compiled, for the data source or for the cache, holds queries only. Nothing in them that an
    analysis visits inserts or updates, but each of them may put its rows into new tables: the queries that it
    is compiled to have the same INTO clauses. -/
theorem compiled_reads_only (c : Context) (b : Backend) (lookup : CacheLookup) (sql text : String)
    (compiled : c.compileSql b sql = .ok text ∨ c.compileSqlCached b lookup sql = .ok (some text)) :
    ∃ qs answers, Statement.parseAll? b.dialect sql = some (qs.map .query) ∧
      text = joinStatements (answers.map Query.render) ∧ List.Forall₂ Answers qs answers := by
  unfold compileSql compileSqlCached at compiled
  cases parsed : Statement.parseAll? b.dialect sql with
  | none =>
    rw [parsed] at compiled
    rcases compiled with compiled | compiled <;> cases compiled
  | some statements =>
    rw [parsed] at compiled
    dsimp only at compiled
    have texts : ∃ texts, text = joinStatements texts ∧ List.Forall₂ AnswersText statements texts := by
      rcases compiled with live | cached
      · have each := Judgement.returns.mapM (compileStatement_answers (c := c) (b := b)) statements
        cases answer : statements.mapM (c.compileStatement b) with
        | error e =>
          rw [answer] at live
          cases live
        | ok texts =>
          rw [answer] at live
          cases live
          exact ⟨texts, rfl, each texts answer⟩
      · cases answer : c.compileAllCached b lookup statements with
        | error e =>
          rw [answer] at cached
          cases cached
        | ok texts =>
          rw [answer] at cached
          cases texts with
          | none => cases cached
          | some texts =>
            cases cached
            exact ⟨texts, rfl, compileAllCached_answers statements _ answer texts rfl⟩
    obtain ⟨texts, rfl, answered⟩ := texts
    obtain ⟨qs, answers, rfl, rfl, each⟩ := queries_of_answersText answered
    exact ⟨qs, answers, rfl, rfl, each⟩

theorem select_into_compiled : ∃ (q answer : Query) (text : String),
    Statement.parseAll? .sqlite "SELECT id INTO copy FROM Orders" = some [.query q] ∧ q.OnlyReads ∧
    compileSql ⟨.ofLayer ordersLayer, ordersLayer⟩ .sqlite "SELECT id INTO copy FROM Orders" = .ok text ∧
    text = joinStatements [answer.render] ∧ answer.body.intos = ["INTO copy"] := by
  let c : Context := ⟨.ofLayer ordersLayer, ordersLayer⟩
  have parses : (Statement.parseAll? .sqlite "SELECT id INTO copy FROM Orders").map (List.map Statement.intos) =
      some [["INTO copy"]] := by
    decide +kernel
  obtain ⟨text, compiled⟩ : ∃ text, c.compileSql .sqlite "SELECT id INTO copy FROM Orders" = .ok text := by
    decide +kernel
  obtain ⟨qs, answers, parsed, rfl, each⟩ := compiled_reads_only c .sqlite (fun _ => none) _ _ (.inl compiled)
  have dialect : Backend.sqlite.dialect = .sqlite := rfl
  rw [dialect] at parsed
  rw [parsed, Option.map_some, Option.some.injEq, List.map_map, List.map_eq_singleton_iff] at parses
  obtain ⟨q, rfl, into⟩ := parses
  obtain ⟨answer, rest, ⟨reads, intos⟩, none, rfl⟩ := List.forall₂_cons_left_iff.mp each
  cases none
  exact ⟨q, answer, _, parsed, reads, compiled, rfl, intos.trans into⟩

end Context

end SemanticLayer
