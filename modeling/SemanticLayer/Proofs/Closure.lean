import SemanticLayer.Proofs.Stages

/-! # Compiled queries are closed

A compiled query has one entry for each object that the query reads, and for everything these are built
on. Of the roll-ups that were read none is left.
-/

namespace SemanticLayer

open Sql
open With (names)

namespace Context

variable {c : Context} {q q' opened q₁ q₂ : Query} {a : Analysis} {joined : List String} {mention : Mention}
  {name : String} {reach : Reach}

theorem ModelStage.mentions (own : c.session = .ofLayer c.layer) (stage : c.ModelStage opened a q q₁)
    {reported : Analysis} (analyzed : c.analyze q = .ok reported) {finding : Finding} (found : reported.Found finding) :
    ∃ bound mention, c.Means bound mention finding ∧ opened.Mentions .visited mention := by
  obtain ⟨bound, mention, reads, means⟩ := found_is_read analyzed found
  rcases (c.strip_alike .visited q).follows.forth reads.mentions with ⟨_, mentions, rfl⟩ | ⟨⟨⟩⟩
  exact ⟨bound, _, c.means_stripName own means, stage.opens.mentions mentions⟩

theorem mentions_at_metrics (models : c.ModelStage opened a q q₁) (joins : c.JoinStage joined q₁ q₂)
    (mentions : opened.Mentions .visited mention) : q₂.Mentions .visited mention := by
  rcases (models.evolves .visited).forth mention mentions with mentions | ⟨⟨⟩⟩
  rcases (joins.evolves .visited).forth mention mentions with mentions | ⟨⟨⟩⟩
  exact mentions

theorem grows_after_views {rolledUp : List Metric} {a' : Analysis} (models : c.ModelStage opened a q q₁)
    (joins : c.JoinStage joined q₁ q₂) (metrics : c.MetricStage a' rolledUp q₂ q') (reach : Reach) :
    Evolves c.layer c.layer.IsData reach (fun _ => True) (fun _ => True) opened q' := by
  have all : ∀ (p : Mention → Prop) mention, p mention → True := fun _ _ _ => trivial
  have model : ∀ name, c.layer.kind? name = some .model → c.layer.IsData name :=
    fun _ => Layer.isData_of_model
  exact ((models.evolves reach).mono model (all _) (all _)).trans
    (((joins.evolves reach).mono model (all _) (all _)).trans
      ((metrics.evolves reach).mono (fun _ fit => fit) (all _) (all _)))

namespace Expands

theorem names_nodup (expands : c.Expands q q') : (names q').Nodup := by
  obtain ⟨models, joins, metrics⟩ := expands
  exact (grows_after_views models joins metrics .visited).nodup (names_nodup_of_analyze models.analyzed)

theorem names_subset (expands : c.Expands q q') (member : name ∈ names q) : name ∈ names q' := by
  obtain ⟨models, joins, metrics⟩ := expands
  rw [← (c.strip_alike .visited q).names_eq] at member
  exact (grows_after_views models joins metrics .visited).kept name (models.opens.names_subset member)

theorem object_present (own : c.session = .ofLayer c.layer) (expands : c.Expands q q') (analyzed : c.analyze q = .ok a)
    {kind : ObjectKind} (found : a.Found (.object kind name)) : name ∈ names q' := by
  obtain ⟨models, joins, metrics⟩ := expands
  have virtual : ∀ table, Finding.object kind name ≠ .physical table := fun _ same => nomatch same
  obtain ⟨bound, mention, means, mentions⟩ := models.mentions own analyzed found
  have found₁ := found_of_mentions models.analyzed mentions means virtual
  have found₂ := found_of_mentions metrics.analyzed (mentions_at_metrics models joins mentions) means virtual
  have later : ∀ name ∈ names _, name ∈ names q' := fun name member =>
    (metrics.evolves .visited).kept name ((joins.evolves .visited).kept name member)
  cases kind with
  | model => exact later name (models.models name found₁)
  | view => exact later name ((models.evolves .visited).kept name (models.views name found₁))
  | metric => exact metrics.metrics name found₂
  | cumulativeMetric => exact metrics.cumulativeMetrics name found₂

theorem rollup_base_present (own : c.session = .ofLayer c.layer) (expands : c.Expands q q')
    (analyzed : c.analyze q = .ok a) {r : Rollup} (found : a.Found (.rollup r)) : r.metric.baseObject ∈ names q' := by
  obtain ⟨models, joins, metrics⟩ := expands
  obtain ⟨bound, mention, means, mentions⟩ := models.mentions own analyzed found
  cases means with
  | @rollup name args _ named rolled =>
    rcases metrics.noted _ (mentions_at_metrics models joins mentions) ⟨name, args, rfl, named⟩ with
      ⟨⟨⟩⟩ | ⟨_, _, r', same, rolled', noted⟩
    cases same
    cases rolled.unique rolled'
    exact metrics.bases _ noted

theorem base_present (expands : c.Expands q q') {base : String} (member : name ∈ names q')
    (fresh : name ∉ names q) (based : c.layer.base? name = some base) : base ∈ names q' := by
  obtain @⟨opened, _, _, _, _, _, _, models, joins, metrics⟩ := expands
  have grows := grows_after_views models joins metrics .visited
  rw [← (c.strip_alike .visited q).names_eq] at fresh
  by_cases early : name ∈ names opened
  · exact grows.kept base (models.opens.based name early fresh base based)
  · exact grows.based name member early base based

end Expands

/-- An entry that the query brought along, or that of a view. -/
def IsOwn (c : Context) (q : Query) (name : String) : Prop :=
  name ∈ names q ∨ c.layer.kind? name = some .view

theorem not_isOwn_of_data (fresh : name ∉ names q) (data : c.layer.IsData name) : ¬c.IsOwn q name := by
  obtain ⟨kind, isKind, other⟩ := data
  rintro (old | view)
  · exact fresh old
  · rw [isKind] at view
    exact other (Option.some.inj view)

/-- No roll-up of the query or of a view is left. -/
theorem Expands.rollups_replaced (expands : c.Expands q q')
    (mentions : q'.MentionsIn (c.IsOwn q) reach mention) : ¬mention.IsRollup := by
  obtain @⟨opened, q₁, q₂, _, _, _, _, models, joins, metrics⟩ := expands
  have before : ∀ name ∈ names q, name ∈ names q₂ := by
    intro name member
    rw [← (c.strip_alike .visited q).names_eq] at member
    exact (joins.evolves reach).kept name ((models.evolves reach).kept name (models.opens.names_subset member))
  refine metrics.replaced _ (fun name fresh => ?_) reach mention mentions
  exact not_isOwn_of_data fun old => fresh (before name old)

/-- Group keys bring in no roll-up but those of the conditions they join on. -/
theorem rollups_of_groupKeys {grouped : List String} (expands : c.Expands q q₁) (keys : c.JoinStage grouped q₁ q')
    (mentions : q'.MentionsIn (c.IsOwn q) reach mention) (isRollup : mention.IsRollup) :
    ∃ j : RelatedJoin, j.Declared c.layer ∧ ∃ x ∈ j.condition.queries, x.Mentions reach mention := by
  have others : ∀ name ∉ names q₁, c.layer.kind? name = some .model → ¬c.IsOwn q name :=
    fun name fresh model => not_isOwn_of_data (fun old => fresh (expands.names_subset old))
      (Layer.isData_of_model model)
  rcases (keys.evolves reach).back _ others mention mentions with mentions | ⟨_, _, rfl⟩ | declared
  · exact absurd isRollup (expands.rollups_replaced mentions)
  · obtain ⟨_, _, same, _⟩ := isRollup
    cases same
  · exact declared

end Context

/-- A query is closed by a compiled one. -/
structure Closed (l : Layer) (q q' : Query) : Prop where
  /-- Entries have distinct names. -/
  distinct : (names q').Nodup
  /-- Every object that is read has an entry. -/
  objects : ∀ a, Context.analyze ⟨.ofLayer l, l⟩ q = .ok a → ∀ name,
    name ∈ a.models ∨ name ∈ a.metrics ∨ name ∈ a.cumulativeMetrics ∨ name ∈ a.views → name ∈ names q'
  /-- So has the base object of every metric that is rolled up. -/
  rolledUp : ∀ a, Context.analyze ⟨.ofLayer l, l⟩ q = .ok a → ∀ r ∈ a.rollups, r.metric.baseObject ∈ names q'
  /-- So has the base of every object whose entry the query did not bring along. -/
  bases : ∀ name ∈ names q', name ∉ names q → ∀ base, l.base? name = some base → base ∈ names q'
  /-- Before group keys are compiled, the clauses and entries of the query and of views hold no
      roll-up. -/
  replaced : ∀ expanded, Context.runStages ⟨.ofLayer l, l⟩ [.models, .relationships, .metrics] q = .ok expanded →
    ∀ name args, expanded.MentionsIn (Context.IsOwn ⟨.ofLayer l, l⟩ q) .written (.call name args) →
      Rollup.isName name = false
  /-- Afterwards they hold only those that stand in the conditions of relationships. -/
  rollups : ∀ name args, q'.MentionsIn (Context.IsOwn ⟨.ofLayer l, l⟩ q) .written (.call name args) →
    Rollup.isName name = true → ∃ j : RelatedJoin, j.Declared l ∧
      ∃ x ∈ j.condition.queries, x.Mentions .written (.call name args)

theorem compile_closed (l : Layer) (q q' : Query)
    (compiled : Context.compile ⟨.ofLayer l, l⟩ q = .ok q') : Closed l q q' := by
  obtain ⟨expanded, grouped, expands, keys⟩ := Context.expands_of_compile compiled
  have later := (keys.evolves .visited).kept
  refine ⟨(keys.evolves .visited).nodup expands.names_nodup, fun a analyzed name found => ?_,
    fun a analyzed r found => ?_, fun name member fresh base based => ?_,
    fun expanded run name args mentions => ?_, fun name args mentions isName => ?_⟩
  · rcases found with model | metric | cumulativeMetric | view
    · exact later name (expands.object_present rfl analyzed (show a.Found (.object .model name) from model))
    · exact later name (expands.object_present rfl analyzed (show a.Found (.object .metric name) from metric))
    · exact later name (expands.object_present rfl analyzed
        (show a.Found (.object .cumulativeMetric name) from cumulativeMetric))
    · exact later name (expands.object_present rfl analyzed (show a.Found (.object .view name) from view))
  · exact later _ (expands.rollup_base_present rfl analyzed (show a.Found (.rollup r) from found))
  · by_cases early : name ∈ names expanded
    · exact later base (expands.base_present early fresh based)
    · exact (keys.evolves .visited).based name member early base based
  · rw [← Bool.not_eq_true]
    exact fun isName => (Context.expands_of_runStages run).rollups_replaced mentions ⟨name, args, rfl, isName⟩
  · exact Context.rollups_of_groupKeys expands keys mentions ⟨name, args, rfl, isName⟩

/-- Orders, a view of them, and their revenue by years. -/
def ordersManifest : Manifest where
  catalog := "mdl"
  schema := "test"
  models := [{ name := "Orders", refSql := some "select * from orders" }]
  metrics := [{ name := "Revenue", baseObject := "Orders",
                timeGrain := [{ name := "day", refColumn := "day", dateParts := [.year] }] }]
  views := [{ name := "Recent", statement := "SELECT * FROM Orders" }]

def ordersLayer : Layer := ⟨ordersManifest, rfl⟩

theorem compile_closed_orders : ∃ q q', readQuery "SELECT * FROM Recent, roll_up(Revenue, day, YEAR)" = .ok q ∧
    Context.compile ⟨.ofLayer ordersLayer, ordersLayer⟩ q = .ok q' ∧
    names q' = ["Orders", "Recent"] ∧ Closed ordersLayer q q' := by
  refine returns_two (p := fun _ q' => names q' = ["Orders", "Recent"]) (by decide +kernel) fun q q' compiled named => ?_
  exact ⟨named, compile_closed ordersLayer q q' compiled⟩

end SemanticLayer
