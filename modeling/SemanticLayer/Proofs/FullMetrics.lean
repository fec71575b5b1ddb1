import SemanticLayer.Proofs.BaseChains
import SemanticLayer.Proofs.Stages
import SemanticLayer.Proofs.WellFormed

/-! # Metrics in full

A metric that others are built on is written with all its dimensions and measures, whatever the query reads of it. The
metrics to be written so are found before anything is written, by following bases through metrics only. A metric that
is read for some columns, and that others are built on only by way of cumulative metrics, is written in full if one of
these comes before it in the order of names, and otherwise without the columns that the query does not read. Main
statement: `Context.base_metrics_in_full`.
-/

namespace SemanticLayer

open List

open Sql (Query Cte forall₂_exists)
open Judgement (always always_bind)
open With (names)

deriving instance ReflBEq, LawfulBEq for ObjectKind

namespace Layer

variable {l : Layer} {next : Option String} {full : List String} {name : String}

/-- An object is built on another one directly, or with metrics only in between. -/
def BuiltOn (l : Layer) (reader name : String) : Prop :=
  ∃ base, l.baseObject? reader = some base ∧
    Relation.ReflTransGen (fun x y => l.kind? x = some .metric ∧ l.baseObject? x = some y) base name

/-- Metrics that are listed together with those they are built on, but for one that is looked at next. -/
structure Gathered (l : Layer) (next : Option String) (full : List String) : Prop where
  distinct : full.Nodup
  metrics : ∀ x ∈ full, l.kind? x = some .metric
  bases : ∀ x ∈ full, ∀ base, l.baseObject? x = some base → l.kind? base = some .metric → base ∈ full ∨ next = some base

theorem Gathered.length_le (gathered : l.Gathered next full) : full.length ≤ l.manifest.metrics.length := by
  have listed : full ⊆ l.manifest.namesOf .metric := fun x member => kind?_eq_some_iff.mp (gathered.metrics x member)
  exact (Nodup.subperm gathered.distinct listed).length_le.trans_eq (length_map _)

theorem Gathered.done (gathered : l.Gathered (some name) full) (seen : l.kind? name = some .metric → name ∈ full) :
    l.Gathered none full where
  distinct := gathered.distinct
  metrics := gathered.metrics
  bases x member base based metric := by
    rcases gathered.bases x member base based metric with old | ⟨⟨⟩⟩
    · exact .inl old
    · exact .inl (seen metric)

theorem Gathered.mem_of_leads (gathered : l.Gathered none full) (seen : l.kind? name = some .metric → name ∈ full)
    {x : String} (metric : l.kind? x = some .metric)
    (leads : Relation.ReflTransGen (fun x y => l.kind? x = some .metric ∧ l.baseObject? x = some y) name x) :
    x ∈ full := by
  induction leads with
  | refl => exact seen metric
  | tail _ step ih => exact (gathered.bases _ (ih step.1) _ step.2 metric).resolve_right nofun

/-- Following the bases of metrics lists all metrics on the way. No metric is listed twice, so there are steps enough
for all metrics of the layer. -/
theorem addBaseMetrics_gathers : ∀ (n : Nat) (next : Option String) (full : List String),
    l.manifest.metrics.length < n + full.length → l.Gathered next full →
    l.Gathered none (l.addBaseMetrics n next full) ∧ ∀ x, x ∈ l.addBaseMetrics n next full ↔
      x ∈ full ∨ l.kind? x = some .metric ∧ ∃ base, next = some base ∧
        Relation.ReflTransGen (fun x y => l.kind? x = some .metric ∧ l.baseObject? x = some y) base x
  | 0, next, full, enough, gathered => by
    have := gathered.length_le
    omega
  | n + 1, none, full, _, gathered => ⟨gathered, fun x => by simp [addBaseMetrics]⟩
  | n + 1, some name, full, enough, gathered => by
    rw [addBaseMetrics]
    split
    · rename_i stops
      have seen : l.kind? name = some .metric → name ∈ full := fun metric => by simpa [metric] using stops
      refine ⟨gathered.done seen, fun x => ⟨.inl, ?_⟩⟩
      rintro (old | ⟨metric, _, ⟨⟩, leads⟩)
      · exact old
      · exact (gathered.done seen).mem_of_leads seen metric leads
    · rename_i goes
      obtain ⟨metric, fresh⟩ : l.kind? name = some .metric ∧ name ∉ full := by simpa using goes
      have further : l.Gathered (l.baseObject? name) (name :: full) := by
        refine ⟨gathered.distinct.cons fresh, forall_mem_cons.mpr ⟨metric, gathered.metrics⟩,
          forall_mem_cons.mpr ⟨fun base based _ => .inr based, fun x member base based isMetric => .inl ?_⟩⟩
        rcases gathered.bases x member base based isMetric with old | ⟨⟨⟩⟩
        · exact mem_cons_of_mem _ old
        · exact mem_cons_self
      have rest := addBaseMetrics_gathers n _ _ (by simp only [length_cons]; omega) further
      refine ⟨rest.1, fun x => (rest.2 x).trans ⟨?_, ?_⟩⟩
      · rintro (member | ⟨isMetric, base, based, leads⟩)
        · rcases mem_cons.mp member with rfl | old
          · exact .inr ⟨metric, x, rfl, .refl⟩
          · exact .inl old
        · exact .inr ⟨isMetric, name, rfl, .head ⟨metric, based⟩ leads⟩
      · rintro (old | ⟨isMetric, _, ⟨⟩, leads⟩)
        · exact .inl (mem_cons_of_mem _ old)
        · rcases leads.cases_head with rfl | ⟨base, step, leads⟩
          · exact .inl mem_cons_self
          · exact .inr ⟨isMetric, base, step.2, leads⟩

/-- The metrics that are written in full are those that an object is built on by way of metrics. -/
theorem mem_baseMetrics_iff {readers : List String} :
    name ∈ l.baseMetrics readers ↔ l.kind? name = some .metric ∧ ∃ reader ∈ readers, l.BuiltOn reader name := by
  have all : ∀ (readers : List String) full, l.Gathered none full → ∀ x, x ∈ readers.foldl (fun full name =>
      l.addBaseMetrics (l.manifest.metrics.length + 1) (l.baseObject? name) full) full ↔
        x ∈ full ∨ l.kind? x = some .metric ∧ ∃ reader ∈ readers, l.BuiltOn reader x := by
    intro readers
    induction readers with
    | nil => simp
    | cons reader readers ih =>
      intro full gathered x
      have next : l.Gathered (l.baseObject? reader) full := { gathered with
        bases := fun x member base based metric =>
          .inl ((gathered.bases x member base based metric).resolve_right nofun) }
      have first := addBaseMetrics_gathers (l.manifest.metrics.length + 1) _ full (by omega) next
      rw [foldl_cons, ih _ first.1, first.2, or_assoc, ← and_or_left]
      simp only [mem_cons, or_and_right, exists_or, exists_eq_left]
      rfl
  simpa [baseMetrics] using all readers [] ⟨.nil, by simp, by simp⟩ name

end Layer

namespace Context

variable {c : Context} {q q' : Query} {a : Analysis} {name : String}

/-- A metric is written for the columns that a query reads of it: nothing that is read is built on it by way of metrics
only, and no metric that comes before it is built on it at all. -/
def PartlyRead (c : Context) (q : Query) (a : Analysis) (name : String) : Prop :=
  name ∈ a.metrics ∧
    (∀ reader ∈ a.metrics ++ a.rollups.map (·.metric.name) ++ a.cumulativeMetrics, ¬ c.layer.BuiltOn reader name) ∧
    ∀ other ∈ a.metrics, other < name → ¬ c.layer.LeadsTo q other name

theorem mem_takeWhile_ne {l : List String} (ascending : Ascending (fun a b => decide (a ≤ b)) l) (listed : name ∈ l)
    {x : String} : x ∈ l.takeWhile (· != name) ↔ x ∈ l ∧ x < name := by
  induction l with
  | nil => cases listed
  | cons first l ih =>
    obtain ⟨least, rest⟩ := pairwise_cons.mp ascending
    by_cases same : first = name
    · subst same
      simp only [bne_self_eq_false, Bool.false_eq_true, not_false_eq_true, takeWhile_cons_of_neg,
        not_mem_nil, mem_cons, false_iff, not_and]
      rintro (rfl | later) less
      · exact String.lt_irrefl _ less
      · exact String.not_lt.mpr (of_decide_eq_true (least x later).1) less
    · have later : name ∈ l := (mem_cons.mp listed).resolve_left (Ne.symm same)
      rw [takeWhile_cons_of_pos (by simpa using same), mem_cons, mem_cons, ih rest later, or_and_right]
      refine or_congr_left ⟨?_, And.left⟩
      rintro rfl
      exact ⟨rfl, lt_of_le_of_ne (of_decide_eq_true (least name later).1) same⟩

theorem readFirst_iff (analyzed : c.analyze q = .ok a) : c.ReadFirst q a name ↔ c.PartlyRead q a name := by
  refine and_congr_right fun read => and_congr ?_ ?_
  · have kind := kind_of_found analyzed (show a.Found (.object .metric name) from read)
    simp only [fullMetrics, Layer.mem_baseMetrics_iff, kind, true_and, not_exists, not_and]
  · have ascending : Ascending (fun a b => decide (a ≤ b)) a.metrics :=
      (consistent_of_analyze analyzed).1.objects .metric
    simp only [mem_takeWhile_ne ascending read, and_imp]

/-- Replacing roll-ups makes a query of another one. -/
def Rolled (c : Context) (q q' : Query) : Prop :=
  ∃ n noted noted', c.replaceRollupsUpTo n q noted = .ok (q', noted')

/-- A query is what the text of a metric stands for, of which some columns are required or all: related models are
joined to it, and its roll-ups may have been replaced. -/
def WrittenAs (c : Context) (m : Metric) (required : Option (List String)) (query : Query) : Prop :=
  ∃ body joined targets, readQuery (m.sql required) = .ok body ∧ c.joinRelationships body = .ok (joined, targets) ∧
    (query = joined ∨ c.Rolled joined query)

theorem Writes.writtenAs {required : Option (List String)} {body query : Query} {m : Metric}
    (writes : c.Writes required name body) (kind : c.layer.kind? name = some .metric)
    (found : c.layer.metric? name = some m) (replaced : query = body ∨ c.Rolled body query) :
    c.WrittenAs m required query := by
  cases writes with
  | model writes => cases writes.kind.symm.trans kind
  | metric _ found' read joins =>
    cases found.symm.trans found'
    exact ⟨_, _, _, read, joins, replaced⟩
  | cumulativeMetric kind' => cases kind.symm.trans kind'

theorem replaceRollups_entries {metrics : List Metric} (replaces : c.replaceRollups q = .ok (q', metrics)) :
    Forall₂ (fun cte cte' => With.nameOf cte' = With.nameOf cte ∧ c.Rolled cte.query cte'.query)
      q.ctes q'.ctes := by
  have replaced : ∀ n, always.holds (c.replaceRollupsUpTo n q) fun q' =>
      Forall₂ (fun cte cte' => With.nameOf cte' = With.nameOf cte ∧ c.Rolled cte.query cte'.query) q.ctes q'.ctes
    | 0 => nofun
    | n + 1 => by
      have rolls : ∀ q, always.holds (c.replaceRollupsUpTo n q) (c.Rolled q) :=
        fun q noted q' noted' ran => ⟨n, noted, noted', ran⟩
      have entry : ∀ cte : Cte Query, always.holds
          (do let query ← c.replaceRollupsUpTo n cte.query; return { cte with query }) fun cte' : Cte Query =>
            With.nameOf cte' = With.nameOf cte ∧ c.Rolled cte.query cte'.query :=
        fun cte => always.bind (rolls cte.query) fun _ => always.pure fun rolled => ⟨rfl, rolled⟩
      rw [replaceRollupsUpTo]
      unfold Query.walk
      exact always.bind (always.mapM entry q.ctes) fun _ => always_bind fun _ => always_bind fun _ =>
        always_bind fun _ => always_bind fun _ => always.pure id
  exact replaced _ [] q' metrics replaces

/-- The base object of an object that gets an entry, or of a metric that is rolled up. -/
def IsBase (c : Context) (q q' : Query) (a : Analysis) (base : String) : Prop :=
  (∃ owner ∈ names q', owner ∉ names q ∧ c.layer.baseObject? owner = some base) ∨
    ∃ r ∈ a.rollups, r.metric.baseObject = base

theorem IsBase.present {base : String} (isBase : c.IsBase q q' a base) (compiled : c.compileMetrics q = .ok q')
    (analyzed : c.analyze q = .ok a) (leads : c.layer.LeadsTo q base name) : name ∈ names q' := by
  obtain ⟨a', rolledUp, stage⟩ := c.compileMetrics_stage q q' compiled
  obtain rfl : a' = a := Except.ok.inj (stage.analyzed.symm.trans analyzed)
  have based := (stage.evolves .visited).based
  induction leads with
  | refl =>
    rcases isBase with ⟨owner, member, fresh, isBase⟩ | ⟨r, rolled, rfl⟩
    · exact based owner member fresh base (Layer.base_of_baseObject isBase)
    · obtain ⟨bound, mention, reads, means⟩ := found_is_read analyzed (show a'.Found (.rollup r) from rolled)
      cases means with
      | @rollup name args _ named resolved =>
        rcases stage.noted _ reads.mentions ⟨name, args, rfl, named⟩ with ⟨⟨⟩⟩ | ⟨_, _, r', same, resolved', noted⟩
        cases same
        cases resolved.unique resolved'
        exact stage.bases _ noted
  | tail _ step ih => exact based _ ih step.1 _ (Layer.base_of_baseObject step.2)

/-- The entry of a metric is the text of the metric, with all its columns or with those that are read of it. -/
theorem entry_writtenAs {m : Metric} {cte : Cte Query} (compiled : c.compileMetrics q = .ok q')
    (analyzed : c.analyze q = .ok a) (kind : c.layer.kind? name = some .metric) (found : c.layer.metric? name = some m)
    (fresh : name ∉ names q) (member : cte ∈ q'.ctes) (named : With.nameOf cte = name) :
    (¬ c.PartlyRead q a name → c.WrittenAs m none cte.query) ∧
      (c.PartlyRead q a name → c.WrittenAs m (some (a.columnsOf (c.layer.qualified name))) cte.query) := by
  subst named
  obtain ⟨a', rolledUp, q₁, q₂, q₃, run, rfl⟩ := compileMetrics_run q q' compiled
  obtain rfl : a' = a := Except.ok.inj (run.analyzed.symm.trans analyzed)
  rcases run.bases.entry ((With.sort_reordered q₃).perm.mem_iff.mp member) with early | ⟨late, writes⟩
  · obtain ⟨before, listed, same, rolled⟩ := forall₂_exists (replaceRollups_entries run.replaces).flip cte early
    rw [same] at kind found fresh ⊢
    rcases run.found.entry listed with own | ⟨_, ⟨reads, writes⟩ | ⟨reads, writes⟩⟩
    · exact absurd (With.mem_names_of_mem own) fresh
    · rw [readFirst_iff analyzed] at reads
      exact ⟨fun all => absurd reads all, fun _ => writes.writtenAs kind found (.inr rolled)⟩
    · rw [readFirst_iff analyzed] at reads
      exact ⟨fun _ => writes.writtenAs kind found (.inr rolled), fun partly => absurd partly reads⟩
  · -- All metrics that are read have entries by then.
    refine ⟨fun _ => writes.writtenAs kind found (.inl rfl), fun partly => absurd ?_ late⟩
    rw [(replaceRollups_alike .visited run.replaces).names_eq]
    exact run.metrics _ partly.1

/-- What metrics are built on is written, and a metric is written with all its columns unless it is read for some of
them before anything is known to be built on it. -/
theorem base_metrics_in_full (c : Context) (q q' : Query) (a : Analysis) (name : String) (m : Metric)
    (compiled : c.compileMetrics q = .ok q') (analyzed : c.analyze q = .ok a)
    (kind : c.layer.kind? name = some .metric) (found : c.layer.metric? name = some m) (fresh : name ∉ names q) :
    (∀ base, c.IsBase q q' a base → c.layer.LeadsTo q base name → name ∈ names q') ∧
    ∀ cte ∈ q'.ctes, With.nameOf cte = name → (¬ c.PartlyRead q a name → c.WrittenAs m none cte.query) ∧
      (c.PartlyRead q a name → c.WrittenAs m (some (a.columnsOf (c.layer.qualified name))) cte.query) :=
  ⟨fun _ isBase => isBase.present compiled analyzed, fun _ => entry_writtenAs compiled analyzed kind found fresh⟩

/-- The running total is read from the daily counts, but these are written without their measure: the peaks are built
on them by way of the running total, and come behind them in the order of names. -/
theorem daily_counts_without_measure : ∃ q q' a m cte, let c : Context := ⟨.ofLayer chained, chained⟩
    readQuery "SELECT Daily.day, Peaks.peak FROM Daily, Peaks" = .ok q ∧ c.compileMetrics q = .ok q' ∧
      c.analyze q = .ok a ∧ c.IsBase q q' a "Daily" ∧ chained.metric? "Daily" = some m ∧ cte ∈ q'.ctes ∧
      With.nameOf cte = "Daily" ∧ c.WrittenAs m (some ["day"]) cte.query ∧
      m.measure.map (·.name) = ["n"] ∧ m.measuresFor (some ["day"]) = [] := by
  let c : Context := ⟨.ofLayer chained, chained⟩
  have run : ∃ q, readQuery "SELECT Daily.day, Peaks.peak FROM Daily, Peaks" = .ok q ∧
      ∃ q', c.compileMetrics q = .ok q' ∧ ∃ a, c.analyze q = .ok a ∧ names q = [] ∧
        names q' = ["Orders", "Daily", "Running", "Peaks"] ∧ a.metrics = ["Daily", "Peaks"] ∧
        a.rollups.map (·.metric.name) = [] ∧ a.cumulativeMetrics = [] ∧
        a.columnsOf (c.layer.qualified "Daily") = ["day"] := by
    decide +kernel
  obtain ⟨q, read, q', compiled, a, analyzed, bare, named, metrics, rollups, cumulative, columns⟩ := run
  obtain ⟨m, found⟩ : ∃ m, chained.metric? "Daily" = some m := Layer.metric?_of_kind (by decide)
  have partly : c.PartlyRead q a "Daily" := by
    refine ⟨by simp [metrics], fun reader member built => ?_, ?_⟩
    · have full := Layer.mem_baseMetrics_iff.mpr ⟨by decide, reader, member, built⟩
      rw [metrics, rollups, cumulative] at full
      exact absurd full (by decide)
    · rw [metrics]
      intro other member less
      exact absurd less (by revert other; decide)
  have written := (base_metrics_in_full c q q' a "Daily" m compiled analyzed (by decide) found (by simp [bare])).2
  obtain ⟨cte, member, isDaily⟩ : ∃ cte ∈ q'.ctes, With.nameOf cte = "Daily" :=
    mem_map.mp (show "Daily" ∈ names q' by simp [named])
  have entry := (written cte member isDaily).2 partly
  rw [columns] at entry
  refine ⟨q, q', a, m, cte, read, compiled, analyzed, .inl ⟨"Running", ?_⟩, found, member, isDaily, entry, ?_⟩
  · exact ⟨by simp [named], by simp [bare], by decide⟩
  · cases found
    decide

end Context

end SemanticLayer
