import SemanticLayer.Proofs.Dereferencing
import SemanticLayer.Proofs.Gathering
import SemanticLayer.Proofs.Keys

/-! # Analyses are well formed

The parts of an analysis agree with each other and with the layer. Its tables are the physical ones and the objects,
each object is reported by the kind it has, columns are read from reported objects that declare them, and the
roll-ups are those of the calls in the query, one by one.
-/

namespace SemanticLayer

open List
open Sql (Expr Path Query)

namespace Layer

/-- A full name denotes an object: it is the one that the layer gives to the object. -/
def Denotes (l : Layer) (table : TableName) : Prop :=
  ∃ kind, ∃ name ∈ l.manifest.namesOf kind, table = l.qualified name

end Layer

/-- A written name is one of the WITH names that are visible. -/
def Sql.Path.IsOneOf (name : Path) (bound : List String) : Prop := ∃ part, name = [part] ∧ part.value ∈ bound

namespace Context

variable {c : Context}

theorem kind?_eq_none_iff {table : TableName} : c.kind? table = none ↔ ¬c.layer.Denotes table := by
  constructor
  · rintro free ⟨kind, name, member, rfl⟩
    have object := Layer.kind?_eq_some_iff.mpr member
    rw [kind?, if_pos (by simp [Layer.owns, Layer.qualified])] at free
    cases free.symm.trans object
  · refine fun free => Option.eq_none_iff_forall_ne_some.mpr fun kind object => free ?_
    exact ⟨kind, table.table, Layer.kind?_eq_some_iff.mp (layer_kind_of_kind object), (qualified_of_kind object).symm⟩

/-- Under the session of its own layer, a plain name that denotes no object is bound as soon as it is visible. -/
theorem isBound_iff (own : c.session = .ofLayer c.layer) {name : Path} {table : TableName}
    (named : c.session.tableName name = .ok table) (free : ¬c.layer.Denotes table) {bound : List String} :
    c.IsBound bound name ↔ name.IsOneOf bound := by
  constructor
  · rintro ⟨part, rfl, visible, _⟩
    exact ⟨part, rfl, visible⟩
  · rintro ⟨part, rfl, visible⟩
    refine ⟨part, rfl, visible, Option.eq_none_iff_forall_ne_some.mpr fun kind object => free ?_⟩
    rw [tableName_plain own] at named
    cases named
    exact ⟨kind, part.value, Layer.kind?_eq_some_iff.mp object, rfl⟩

/-- The physical tables of a query are those of its free names. -/
theorem mem_physicalTables_iff (own : c.session = .ofLayer c.layer) {q : Query} {a : Analysis}
    (analyzed : c.analyze q = .ok a) (table : TableName) :
    table ∈ a.physicalTables ↔ ∃ bound name, q.Reads .visited [] bound (.table name) ∧
      c.session.tableName name = .ok table ∧ ¬c.layer.Denotes table ∧ ¬name.IsOneOf bound := by
  constructor
  · intro found
    have found : a.Found (.physical table) := found
    obtain ⟨bound, mention, reads, means⟩ := found_is_read analyzed found
    cases means with
    | physical unbound named free =>
      have free := kind?_eq_none_iff.mp free
      exact ⟨bound, _, reads, named, free, (isBound_iff own named free).not.mp unbound⟩
  · rintro ⟨bound, name, reads, named, free, unbound⟩
    exact found_of_reads analyzed reads
      (.physical ((isBound_iff own named free).not.mpr unbound) named (kind?_eq_none_iff.mpr free))

/-- An entry sees itself, since the clause is recursive, but not the entry `c` of a derived table. -/
theorem mem_physicalTables_of_nested : ∃ q a bound name, readQuery ("WITH RECURSIVE a AS (SELECT 1 FROM a, c) " ++
      "SELECT 1 FROM (WITH c AS (SELECT 1 FROM x.a) SELECT 1 FROM c) AS t, Band") = .ok q ∧
    analyze ⟨.ofLayer sampleLayer, sampleLayer⟩ q = .ok a ∧
    a.physicalTables = [⟨"mdl", "test", "c"⟩, ⟨"mdl", "x", "a"⟩] ∧
    q.Reads .visited [] bound (.table name) ∧ Session.tableName (.ofLayer sampleLayer) name = .ok ⟨"mdl", "test", "c"⟩ ∧
    ¬sampleLayer.Denotes ⟨"mdl", "test", "c"⟩ ∧ ¬name.IsOneOf bound := by
  let c : Context := ⟨.ofLayer sampleLayer, sampleLayer⟩
  have run : ∃ q, readQuery ("WITH RECURSIVE a AS (SELECT 1 FROM a, c) " ++
      "SELECT 1 FROM (WITH c AS (SELECT 1 FROM x.a) SELECT 1 FROM c) AS t, Band") = .ok q ∧
      ∃ a, c.analyze q = .ok a ∧ a.physicalTables = [⟨"mdl", "test", "c"⟩, ⟨"mdl", "x", "a"⟩] := by
    decide +kernel
  obtain ⟨q, read, a, analyzed, tables⟩ := run
  have found : ⟨"mdl", "test", "c"⟩ ∈ a.physicalTables := by simp [tables]
  obtain ⟨bound, name, reads, named, free, unbound⟩ :=
    (mem_physicalTables_iff (c := c) rfl analyzed ⟨"mdl", "test", "c"⟩).mp found
  exact ⟨q, a, bound, name, read, analyzed, tables, reads, named, free, unbound⟩

end Context

namespace Analysis

/-- How the parts of an analysis go together, for a query with some calls of table functions. -/
structure WellFormed (l : Layer) (calls : List (List (Expr Query))) (a : Analysis) : Prop where
  /-- Every table is either physical or an object, and listed once. -/
  distinct : a.tables.Nodup
  union : a.tables.Perm (a.physicalTables ++ (a.models ++ a.metrics ++ a.cumulativeMetrics ++ a.views).map l.qualified)
  kinds : ∀ kind, ∀ name ∈ a.reported kind, ∀ other, name ∈ l.manifest.namesOf other ↔ other = kind
  keys : (a.columns.map Prod.fst).Nodup
  columns : ∀ entry ∈ a.columns, ∃ kind, ∃ name ∈ a.reported kind, kind ≠ .view ∧ entry.1 = l.qualified name ∧
    entry.2 ≠ [] ∧ entry.2.Nodup ∧ ∀ column ∈ entry.2, l.Declares name column kind
  /-- The roll-up at each position is that of the call at the same position. -/
  rollups : Forall₂ (fun args r => Rollup.resolve l args = .ok r) calls a.rollups
  apart : ∀ r ∈ a.rollups, r.metric.name ∉ a.metrics

section Parts

variable {l : Layer} {a : Analysis}

theorem mem_columnsOf {table : TableName} {column : String} :
    column ∈ a.columnsOf table ↔ (table, column) ∈ a.reads := by
  simp only [columnsOf, mem_map, mem_filter, beq_iff_eq]
  constructor
  · rintro ⟨⟨table', column'⟩, ⟨member, rfl⟩, rfl⟩
    exact member
  · exact fun member => ⟨(table, column), ⟨member, rfl⟩, rfl⟩

theorem Consistent.columnsOf_nodup (consistent : a.Consistent l) (table : TableName) : (a.columnsOf table).Nodup := by
  refine (consistent.reads.nodup.filter _).map_on ?_
  rintro ⟨_, _⟩ first ⟨_, _⟩ second rfl
  have same : ∀ {read : TableName × String}, read ∈ a.reads.filter (·.1 == table) → read.1 = table :=
    fun member => beq_iff_eq.mp (mem_filter.mp member).2
  rw [Prod.mk.injEq]
  exact ⟨(same first).trans (same second).symm, rfl⟩

end Parts

end Analysis

namespace Context

variable {c : Context} {q : Query} {a : Analysis}

theorem mem_namesOf_iff (analyzed : c.analyze q = .ok a) {kind : ObjectKind} {name : String}
    (member : name ∈ a.reported kind) (other : ObjectKind) : name ∈ c.layer.manifest.namesOf other ↔ other = kind := by
  rw [← Layer.kind?_eq_some_iff, kind_of_found analyzed (Analysis.found_object_iff.mpr member), Option.some.injEq,
    eq_comm]

theorem not_denotes_of_physical (analyzed : c.analyze q = .ok a) {table : TableName}
    (member : table ∈ a.physicalTables) : ¬c.layer.Denotes table := by
  have found : a.Found (.physical table) := member
  obtain ⟨_, _, _, means⟩ := found_is_read analyzed found
  cases means with
  | physical _ _ free => exact kind?_eq_none_iff.mp free

/-- No name is reported twice, and no object is a physical table. -/
theorem tables_perm (analyzed : c.analyze q = .ok a) : a.tables.Perm
    (a.physicalTables ++ (a.models ++ a.metrics ++ a.cumulativeMetrics ++ a.views).map c.layer.qualified) := by
  have consistent := (consistent_of_analyze analyzed).1
  have differ : ∀ kind other, kind ≠ other → ∀ name ∈ a.reported kind, ∀ name' ∈ a.reported other, name ≠ name' := by
    rintro kind other different name first _ second rfl
    have known := (mem_namesOf_iff analyzed second other).mpr rfl
    exact different ((mem_namesOf_iff analyzed first other).mp known).symm
  have objects : (a.models ++ a.metrics ++ a.cumulativeMetrics ++ a.views).Nodup := by
    have each := fun kind => (consistent.objects kind).nodup
    refine nodup_append.mpr ⟨nodup_append.mpr ⟨nodup_append.mpr
      ⟨each .model, each .metric, differ .model .metric (by decide)⟩, each .cumulativeMetric, ?_⟩, each .view, ?_⟩
    · refine forall_mem_append.mpr ⟨?_, ?_⟩
      · exact differ .model .cumulativeMetric (by decide)
      · exact differ .metric .cumulativeMetric (by decide)
    · refine forall_mem_append.mpr ⟨forall_mem_append.mpr ⟨?_, ?_⟩, ?_⟩
      · exact differ .model .view (by decide)
      · exact differ .metric .view (by decide)
      · exact differ .cumulativeMetric .view (by decide)
  have denotes : ∀ table ∈ (a.models ++ a.metrics ++ a.cumulativeMetrics ++ a.views).map c.layer.qualified,
      c.layer.Denotes table := by
    intro table member
    obtain ⟨name, listed, rfl⟩ := mem_map.mp member
    obtain ⟨kind, reported⟩ := Analysis.mem_objects_iff.mp listed
    exact ⟨kind, name, (mem_namesOf_iff analyzed reported kind).mpr rfl, rfl⟩
  refine (perm_ext_iff_of_nodup consistent.tables.nodup ?_).mpr fun table => ?_
  · refine nodup_append.mpr ⟨consistent.physicalTables.nodup, ?_, ?_⟩
    · exact objects.map fun _ _ same => congrArg TableName.table same
    · rintro table physical _ object rfl
      exact not_denotes_of_physical analyzed physical (denotes table object)
  · rw [consistent.union, mem_append, mem_map]
    simp only [Analysis.mem_objects_iff]
    refine or_congr Iff.rfl ⟨?_, ?_⟩
    · rintro ⟨kind, name, reported, same⟩
      exact ⟨name, ⟨kind, reported⟩, same.symm⟩
    · rintro ⟨name, ⟨kind, reported⟩, same⟩
      exact ⟨kind, name, reported, same.symm⟩

/-- Every table of which columns are read is a reported object that declares them. -/
theorem columns_declared (analyzed : c.analyze q = .ok a) : ∀ entry ∈ a.columns,
    ∃ kind, ∃ name ∈ a.reported kind, kind ≠ .view ∧ entry.1 = c.layer.qualified name ∧
      entry.2 ≠ [] ∧ entry.2.Nodup ∧ ∀ column ∈ entry.2, c.layer.Declares name column kind := by
  have consistent := (consistent_of_analyze analyzed).1
  intro entry member
  obtain ⟨table, listed, rfl⟩ := mem_map.mp member
  obtain ⟨⟨_, column⟩, read, rfl⟩ := mem_map.mp (mem_eraseDups.mp listed)
  obtain ⟨kind, name, reported, same, declares⟩ := consistent.covered _ read
  refine ⟨kind, name, reported, ?_, same, ne_nil_of_mem (Analysis.mem_columnsOf.mpr read),
    consistent.columnsOf_nodup _, fun other there => ?_⟩
  · rintro rfl
    exact declares
  · -- A second column leads to an object of the same full name, and with it of the same kind.
    obtain ⟨kind', name', reported', same', declares'⟩ := consistent.covered _ (Analysis.mem_columnsOf.mp there)
    obtain rfl : name = name' := congrArg TableName.table (same.symm.trans same')
    have known := (mem_namesOf_iff analyzed reported kind).mpr rfl
    obtain rfl := (mem_namesOf_iff analyzed reported' kind).mp known
    exact declares'

/-- Whatever the session, the analysis of a query is well formed. -/
theorem analyze_wellFormed (analyzed : c.analyze q = .ok a) : a.WellFormed c.layer q.calls := by
  obtain ⟨consistent, resolved⟩ := consistent_of_analyze analyzed
  obtain ⟨_, checked, same⟩ := analyze_eq_ok.mp analyzed
  refine ⟨consistent.tables.nodup, tables_perm analyzed, fun kind name member => mem_namesOf_iff analyzed member, ?_,
    columns_declared analyzed, resolved, ?_⟩
  · have keys : a.columns.map Prod.fst = (a.reads.map Prod.fst).eraseDups := by
      rw [Analysis.columns, map_map]
      exact map_id _
    rw [keys]
    exact nodup_eraseDups _
  · subst same
    exact Analysis.checkRollups_eq_ok.mp checked

/-- A model is read next to a physical table. The subquery rolls a metric up and reads a column of the model outside. -/
theorem analyze_wellFormed_of_correlated : ∃ q a,
    readQuery "SELECT a.name FROM Album a, t WHERE EXISTS (SELECT a.id FROM roll_up(Revenue, orderdate, DAY))" = .ok q ∧
    analyze ⟨.ofLayer sampleLayer, sampleLayer⟩ q = .ok a ∧
    a.tables = [⟨"mdl", "test", "Album"⟩, ⟨"mdl", "test", "t"⟩] ∧ a.models = ["Album"] ∧
    a.columns = [(⟨"mdl", "test", "Album"⟩, ["id", "name"])] ∧ a.rollups.map (·.metric.name) = ["Revenue"] ∧
    a.WellFormed sampleLayer q.calls := by
  refine returns_two (p := fun _ a => a.tables = [⟨"mdl", "test", "Album"⟩, ⟨"mdl", "test", "t"⟩] ∧ a.models = ["Album"] ∧
    a.columns = [(⟨"mdl", "test", "Album"⟩, ["id", "name"])] ∧ a.rollups.map (·.metric.name) = ["Revenue"])
    (by decide +kernel) fun q a analyzed facts => ?_
  obtain ⟨tables, models, columns, rollups⟩ := facts
  exact ⟨tables, models, columns, rollups, analyze_wellFormed analyzed⟩

end Context

end SemanticLayer
