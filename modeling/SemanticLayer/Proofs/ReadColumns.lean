import SemanticLayer.Proofs.Declarations
import SemanticLayer.Proofs.FullMetrics

/-! # Columns that are read are rendered

An analysis notes every column that is read at one of its sites: in a select item, WHERE, GROUP BY, HAVING, QUALIFY or
ORDER BY, in the condition of a join, by a wildcard, at any depth. So the entry of a metric has every column that is
read of it there. The columns of USING are no site. Main statement: `Context.read_columns_rendered`.
-/

namespace SemanticLayer

open Sql List
open With (names)

namespace Metric

variable (m : Metric) (required : Option (List String)) {names : List String} {d : Column}

/-- The names of the columns that are rendered. A filler stands in for the measures if there is none. -/
def renderedNames : List String :=
  (m.dimensionsFor required ++ m.measuresFor required).map Column.name ++
    if (m.measuresFor required).isEmpty then [countFiller] else []

variable {m required}

theorem mem_dimensionsFor : d ∈ m.dimensionsFor (some names) ↔
    d ∈ m.dimension ∧ (d.name ∈ names ∨ ∀ other ∈ m.dimension, other.name ∉ names) := by
  unfold dimensionsFor
  dsimp only
  split
  · rename_i none
    have unasked : ∀ other ∈ m.dimension, other.name ∉ names := by simpa using none
    exact ⟨fun declared => ⟨declared, .inr unasked⟩, And.left⟩
  · rename_i some
    simp only [mem_filter, contains_iff_mem]
    refine and_congr_right fun _ => ⟨.inl, fun asked => asked.resolve_right fun unasked => some ?_⟩
    simpa using unasked

theorem mem_measuresFor : d ∈ m.measuresFor (some names) ↔ d ∈ m.measure ∧ d.name ∈ names := by
  simp [measuresFor]

theorem mem_rendered_of_required (declared : d ∈ m.columns)
    (asked : ∀ names, required = some names → d.name ∈ names) : d ∈ m.dimensionsFor required ++ m.measuresFor required := by
  cases required with
  | none => exact declared
  | some names =>
    have asked := asked names rfl
    refine mem_append.mpr ((mem_append.mp declared).imp (fun dimension => ?_) fun measure => ?_)
    · exact mem_dimensionsFor.mpr ⟨dimension, .inl asked⟩
    · exact mem_measuresFor.mpr ⟨measure, asked⟩

/-- No other column is rendered under the name of a dimension that is left out. -/
theorem mem_renderedNames_iff (declared : d ∈ m.dimension) (other : d.name ≠ countFiller) :
    d.name ∈ m.renderedNames required ↔ d ∈ m.dimensionsFor required := by
  refine ⟨fun rendered => ?_, fun rendered => ?_⟩
  · cases required with
    | none => exact declared
    | some names =>
      rw [mem_dimensionsFor]
      refine ⟨declared, ?_⟩
      rcases mem_append.mp rendered with column | filler
      · obtain ⟨d', here, same⟩ := mem_map.mp column
        rw [← same]
        rcases mem_append.mp here with dimension | measure
        · exact (mem_dimensionsFor.mp dimension).2
        · exact .inl (mem_measuresFor.mp measure).2
      · split at filler
        · exact absurd (mem_singleton.mp filler) other
        · cases filler
  · exact mem_append_left _ (mem_map_of_mem (mem_append_left _ rendered))

theorem dimensionsFor_eq_iff : m.dimensionsFor required = m.dimension ↔
    ∀ d ∈ m.dimension, d ∈ m.dimensionsFor required := by
  refine ⟨fun all d declared => all ▸ declared, fun all => ?_⟩
  cases required with
  | none => rfl
  | some names =>
    have asked := fun d declared => (mem_dimensionsFor.mp (all d declared)).2
    unfold dimensionsFor
    dsimp only
    split
    · rfl
    · rename_i some
      refine filter_eq_self.mpr fun d declared => contains_iff_mem.mpr ?_
      exact (asked d declared).resolve_right fun unasked => some (by simpa using unasked)

end Metric

/-- An entry of a metric is pointed at the cache table exactly if all dimensions are rendered. -/
theorem coversDimensions_iff_rendered {m : Metric} (unnamed : ∀ d ∈ m.dimension, d.name ≠ countFiller)
    (required : Option (List String)) {body : Query} {s : Select Query} (select : body.body = .select s)
    (outputs : outputNames s.items = m.renderedNames required) :
    (coversDimensions m body = true ↔ m.dimensionsFor required = m.dimension) ∧
    ((∀ names, required = some names → ∀ d ∈ m.dimension, d.name ∉ names) → coversDimensions m body = true) ∧
    ∀ (c : Context) (lookup : CacheLookup) (cte : Cte Query) (table : String), cte.query = body →
      c.layer.kind? (With.nameOf cte) = some .metric → c.layer.metric? (With.nameOf cte) = some m →
      (c.cacheUse lookup cte = .table table ↔
        lookup (c.layer.qualified (With.nameOf cte)) = some table ∧ m.dimensionsFor required = m.dimension) := by
  have covers : coversDimensions m body = true ↔ m.dimensionsFor required = m.dimension := by
    rw [Metric.dimensionsFor_eq_iff, coversDimensions, select]
    simp only [all_eq_true, contains_iff_mem, outputs]
    refine forall₂_congr fun d declared => Metric.mem_renderedNames_iff declared (unnamed d declared)
  refine ⟨covers, fun unasked => ?_, fun c lookup cte table same kind found => ?_⟩
  · rw [covers]
    cases required with
    | none => rfl
    | some names =>
      refine Metric.dimensionsFor_eq_iff.mpr fun d declared => ?_
      exact Metric.mem_dimensionsFor.mpr ⟨declared, .inr (unasked names rfl)⟩
  · simp only [Context.cacheUse, kind, found, same]
    rw [← covers]
    cases coversDimensions m body <;> cases lookup (c.layer.qualified (With.nameOf cte)) <;> simp

def dailyCounts : Metric where
  name := "Daily"
  baseObject := "Orders"
  dimension := [{ name := "day", typeName := "date" }, { name := "region", typeName := "varchar" }]
  measure := [{ name := "n", typeName := "integer", expression := some "count(*)" }]

theorem counts_of_regions_uncovered : ∃ body, readQuery (dailyCounts.sql (some ["region"])) = .ok body ∧
    dailyCounts.renderedNames (some ["region"]) = ["region", "_count_filler"] ∧
    coversDimensions dailyCounts body = false := by
  have read : (readQuery (dailyCounts.sql (some ["region"]))).toOption.map (fun q => Context.orderNames q.body) =
      some (dailyCounts.renderedNames (some ["region"])) := by decide +kernel
  obtain ⟨body, parsed, outputs⟩ := Option.map_eq_some_iff.mp read
  cases select : body.body with
  | select s =>
    rw [select] at outputs
    have covers := (coversDimensions_iff_rendered (m := dailyCounts) (by decide) (some ["region"]) select outputs).1
    refine ⟨body, toOption_eq_some_iff.mp parsed, by decide, ?_⟩
    rw [← Bool.not_eq_true, covers]
    decide
  | query | setOp | values | table | write =>
    rw [select] at outputs
    cases outputs

theorem Analysis.mem_reads_addReads {fields : List Field} {a : Analysis} {read : TableName × String} :
    read ∈ (fields.foldl (fun a field => a.addRead field) a).reads ↔ read ∈ a.reads ∨ ∃ f ∈ fields, f.source = read := by
  induction fields generalizing a with
  | nil => simp
  | cons f fields ih =>
    rw [foldl_cons, ih, addRead, mem_insertOrdered, exists_mem_cons_iff, eq_comm]
    tauto

theorem Scope.mem_fieldsOf {s : Scope} {e : Expr Query} {fields : List Field} {name : Path} {f : Field}
    (found : s.fieldsOf e = .ok fields) (named : name ∈ e.names) (means : s.resolveReference name.values = .ok (some f)) :
    f ∈ fields := by
  obtain ⟨meanings, resolved, rest⟩ := bind_eq_ok_iff.mp found
  cases rest
  have each := Judgement.returns.mapM (fun name meaning resolved => resolved) e.names meanings resolved
  obtain ⟨meaning, listed, same⟩ := forall₂_exists each name named
  rw [means] at same
  cases same
  exact mem_filterMap.mpr ⟨_, listed, rfl⟩

namespace Context

variable {c : Context} {q q' : Query} {a : Analysis} {site : Site} {f : Field} {name : String}

/-- A column is read at a site: a name there means it, or a wildcard stands for it. -/
def ReadAt (f : Field) : Site → Prop
  | (scope, .names e) => ∃ name ∈ e.names, scope.resolveReference name.values = .ok (some f)
  | (_, .columns fields) => f ∈ fields
  | (_, .table _) | (_, .call _ _) | (_, .output _ _) | (_, .filter _) | (_, .refused _) | (_, .finish) => False

theorem noted_reads (c : Context) (a : Analysis) (site : Site) : a.reads ⊆ (c.noted a site).reads := by
  obtain ⟨scope, part⟩ := site
  intro read member
  cases part with
  | table name =>
    rw [noted]
    repeat' split
    · exact member
    · rwa [(Analysis.addObject_frame a _ _).2.2.1]
    · exact member
    · exact member
  | call name args | output e label =>
    rw [noted]
    repeat' split
    all_goals exact member
  | names e | columns fields => exact Analysis.mem_reads_addReads.mpr (.inl member)
  | filter e =>
    rw [noted]
    generalize (predicatesOf scope e).toOption.getD [] = predicates
    induction predicates generalizing a with
    | nil => exact member
    | cons p predicates ih => exact ih (a.addPredicate p) member
  | refused | finish => exact member

theorem noted_reads_of_readAt (passes : c.Passes site) (read : ReadAt f site) : f.source ∈ (c.noted a site).reads := by
  obtain ⟨scope, part⟩ := site
  cases part with
  | names e =>
    obtain ⟨fields, found⟩ := passes
    obtain ⟨name, named, means⟩ := read
    rw [noted, found]
    exact Analysis.mem_reads_addReads.mpr (.inr ⟨f, Scope.mem_fieldsOf found named means, rfl⟩)
  | columns fields => exact Analysis.mem_reads_addReads.mpr (.inr ⟨f, read, rfl⟩)
  | table | call | output | filter | refused | finish => exact read.elim

theorem reads_of_readAt {sites : List Site} (passes : c.PassAll sites) (visited : site ∈ sites) (read : ReadAt f site) :
    f.source ∈ (sites.foldl c.noted a).reads := by
  have kept : ∀ (sites : List Site) (a : Analysis), a.reads ⊆ (sites.foldl c.noted a).reads := by
    intro sites
    induction sites with
    | nil => exact fun _ => Subset.refl _
    | cons site sites ih => exact fun a => Subset.trans (c.noted_reads a site) (ih _)
  induction sites generalizing a with
  | nil => cases visited
  | cons first rest ih =>
    obtain ⟨here, later⟩ := forall_mem_cons.mp passes
    rcases mem_cons.mp visited with rfl | visited
    · exact kept rest _ (noted_reads_of_readAt here read)
    · exact ih later visited

/-- A column of a metric that is noted is one that the metric declares, and the metric is read. -/
theorem metric_of_read {m : Metric} {column : String} (analyzed : c.analyze q = .ok a)
    (kind : c.layer.kind? name = some .metric) (found : c.layer.metric? name = some m)
    (read : (c.layer.qualified name, column) ∈ a.reads) : name ∈ a.metrics ∧ ∃ d ∈ m.columns, d.name = column := by
  obtain ⟨kind', name', reported, same, declares⟩ := (consistent_of_analyze analyzed).1.covered _ read
  obtain rfl : name = name' := congrArg TableName.table same
  have isMetric := kind_of_found analyzed (Analysis.found_object_iff.mpr reported)
  cases kind.symm.trans isMetric
  obtain ⟨m', member, named, declared⟩ := declares
  have distinct := c.layer.objectNames_nodup
  simp only [Manifest.objectNames, nodup_append] at distinct
  have found' := (find?_eq_some_iff Metric.name distinct.1.1.2.1).mpr ⟨member, named⟩
  cases found.symm.trans found'
  exact ⟨reported, mem_map.mp declared⟩

theorem mem_names_of_metric (compiled : c.compileMetrics q = .ok q') (analyzed : c.analyze q = .ok a)
    (read : name ∈ a.metrics) : name ∈ names q' := by
  obtain ⟨a', rolledUp, q₁, q₂, q₃, run, rfl⟩ := compileMetrics_run q q' compiled
  obtain rfl : a' = a := Except.ok.inj (run.analyzed.symm.trans analyzed)
  refine (With.sort_reordered q₃).names_perm.mem_iff.mpr (run.bases.names_subset ?_)
  rw [(replaceRollups_alike .visited run.replaces).names_eq]
  exact run.metrics name read

/-- A metric of which a column is read has an entry, and it is written with this column. -/
theorem read_columns_rendered {m : Metric} (compiled : c.compileMetrics q = .ok q')
    (kind : c.layer.kind? name = some .metric) (found : c.layer.metric? name = some m) (fresh : name ∉ names q)
    (visited : site ∈ c.sites q []) (read : ReadAt f site) (table : f.table = c.layer.qualified name) :
    name ∈ names q' ∧ ∀ cte ∈ q'.ctes, With.nameOf cte = name → ∃ required, c.WrittenAs m required cte.query ∧
      ∃ d ∈ m.dimensionsFor required ++ m.measuresFor required, d.name = f.column := by
  obtain ⟨a, _, _, _, _, run, _⟩ := compileMetrics_run q q' compiled
  have analyzed := run.analyzed
  have noted : (c.layer.qualified name, f.column) ∈ a.reads := by
    obtain ⟨passes, _, rfl⟩ := analyze_eq_ok.mp analyzed
    exact table ▸ reads_of_readAt passes visited read
  obtain ⟨isRead, d, declared, same⟩ := metric_of_read analyzed kind found noted
  refine ⟨mem_names_of_metric compiled analyzed isRead, fun cte member named => ?_⟩
  obtain ⟨inFull, inPart⟩ := entry_writtenAs compiled analyzed kind found fresh member named
  by_cases partly : c.PartlyRead q a name
  · refine ⟨_, inPart partly, d, Metric.mem_rendered_of_required declared ?_, same⟩
    rintro _ ⟨⟩
    rw [same]
    exact Analysis.mem_columnsOf.mpr noted
  · exact ⟨none, inFull partly, d, Metric.mem_rendered_of_required declared nofun, same⟩

/-- A measure that is read in the condition of a join only is rendered. -/
theorem joined_total_rendered : ∃ q q' m, let c : Context := ⟨.ofLayer sampleLayer, sampleLayer⟩
    readQuery "SELECT 1 FROM Revenue JOIN raw_t ON x = total" = .ok q ∧ c.compileMetrics q = .ok q' ∧
      sampleLayer.metric? "Revenue" = some m ∧ "Revenue" ∈ names q' ∧
      ∀ cte ∈ q'.ctes, With.nameOf cte = "Revenue" → ∃ required, c.WrittenAs m required cte.query ∧
        ∃ d ∈ m.dimensionsFor required ++ m.measuresFor required, d.name = "total" := by
  let c : Context := ⟨.ofLayer sampleLayer, sampleLayer⟩
  let f := Field.plain (sampleLayer.qualified "Revenue") "total" "double"
  have run : ∃ q, readQuery "SELECT 1 FROM Revenue JOIN raw_t ON x = total" = .ok q ∧ ∃ q', c.compileMetrics q = .ok q' ∧
      names q = [] ∧ ((c.sites q []).any fun
        | (scope, .names e) => e.names.any fun name => decide ((scope.resolveReference name.values).toOption = some (some f))
        | _ => false) = true := by
    decide +kernel
  obtain ⟨q, reads, q', compiled, bare, somewhere⟩ := run
  obtain ⟨⟨scope, part⟩, visited, here⟩ := any_eq_true.mp somewhere
  have read : ReadAt f (scope, part) := by
    cases part with
    | names e =>
      obtain ⟨name, named, means⟩ := any_eq_true.mp here
      exact ⟨name, named, toOption_eq_some_iff.mp (of_decide_eq_true means)⟩
    | table | call | columns | output | filter | refused | finish => cases here
  obtain ⟨m, found⟩ : ∃ m, sampleLayer.metric? "Revenue" = some m := Layer.metric?_of_kind (by decide)
  have rendered := read_columns_rendered (c := c) compiled (by decide) found (by simp [bare]) visited read rfl
  exact ⟨q, q', m, reads, compiled, found, rendered⟩

end Context

end SemanticLayer
