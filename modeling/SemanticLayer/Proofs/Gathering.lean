import SemanticLayer.Proofs.Acceptance
import SemanticLayer.Proofs.OrderedSets

/-! # What an analysis gathers

Every site of a query adds to one analysis. The sets of the analysis stay in order, and roll-ups are noted in the order
of the calls. The columns in scope at a site come from tables that are sites themselves: `Context.Sourced`. So every
column that is read is declared by an object that is reported.
-/

namespace SemanticLayer

open Sql List

variable {fields : List Field} {s : Scope} {f : Field} {name : DottedName}

def Layer.Declares (l : Layer) (name column : String) : ObjectKind → Prop
  | .model => ∃ m ∈ l.manifest.models, m.name = name ∧ column ∈ m.columns.map Column.name
  | .metric => ∃ m ∈ l.manifest.metrics, m.name = name ∧ column ∈ m.columns.map Column.name
  | .cumulativeMetric => ∃ m ∈ l.manifest.cumulativeMetrics, m.name = name ∧ column ∈ m.columnNames
  | .view => False

/-- The column that a field stands for, with its table. -/
def Field.source (f : Field) : TableName × String := (f.table, f.column)

/-- The columns that the fields of a scope stand for. -/
def Scope.sources (s : Scope) : List (TableName × String) := s.flatMap fun frame => frame.fields.map Field.source

namespace Analysis

/-- The names of the objects of a kind that are read. -/
def reported (a : Analysis) : ObjectKind → List String
  | .model => a.models
  | .metric => a.metrics
  | .cumulativeMetric => a.cumulativeMetrics
  | .view => a.views

theorem found_object_iff {a : Analysis} {kind : ObjectKind} {name : String} :
    a.Found (.object kind name) ↔ name ∈ a.reported kind := by
  cases kind <;> rfl

theorem mem_objects_iff {a : Analysis} {name : String} :
    name ∈ a.models ++ a.metrics ++ a.cumulativeMetrics ++ a.views ↔ ∃ kind, name ∈ a.reported kind := by
  simp only [mem_append]
  constructor
  · rintro (((model | metric) | cumulative) | view)
    · exact ⟨.model, model⟩
    · exact ⟨.metric, metric⟩
    · exact ⟨.cumulativeMetric, cumulative⟩
    · exact ⟨.view, view⟩
  · rintro ⟨kind, member⟩
    cases kind with
    | model => exact .inl (.inl (.inl member))
    | metric => exact .inl (.inl (.inr member))
    | cumulativeMetric => exact .inl (.inr member)
    | view => exact .inr member

/-- A column is one that an object declares, and the object is read. -/
def Covers (l : Layer) (a : Analysis) (read : TableName × String) : Prop :=
  ∃ kind, ∃ name ∈ a.reported kind, read.1 = l.qualified name ∧ l.Declares name read.2 kind

/-- The sets of an analysis are in order, and its tables are those of the others. -/
structure Ordered (l : Layer) (a : Analysis) : Prop where
  tables : Ascending TableName.le a.tables
  physicalTables : Ascending TableName.le a.physicalTables
  objects : ∀ kind, Ascending (fun a b => decide (a ≤ b)) (a.reported kind)
  reads : Ascending readLe a.reads
  union : ∀ table, table ∈ a.tables ↔
    table ∈ a.physicalTables ∨ ∃ kind, ∃ name ∈ a.reported kind, table = l.qualified name

/-- The sets of an analysis are in order, and go together. -/
structure Consistent (l : Layer) (a : Analysis) : Prop extends Ordered l a where
  covered : ∀ read ∈ a.reads, a.Covers l read

section Steps

variable {l : Layer} {a b : Analysis} {table : TableName} {kind : ObjectKind} {other : ObjectKind}

theorem reported_addObject : (a.addObject table kind).reported other =
    if other = kind then insertName table.table (a.reported other) else a.reported other := by
  cases kind <;> cases other <;> rfl

theorem mem_reported_addObject {name : String} :
    name ∈ (a.addObject table kind).reported other ↔ other = kind ∧ name = table.table ∨ name ∈ a.reported other := by
  rw [← found_object_iff, found_addObject, found_object_iff]
  simp only [Finding.object.injEq]

theorem addObject_frame (a : Analysis) (table : TableName) (kind : ObjectKind) :
    (a.addObject table kind).tables = insertOrdered TableName.le table a.tables ∧
    (a.addObject table kind).physicalTables = a.physicalTables ∧ (a.addObject table kind).reads = a.reads ∧
    (a.addObject table kind).rollups = a.rollups := by
  cases kind <;> exact ⟨rfl, rfl, rfl, rfl⟩

theorem Ordered.addObject (ordered : a.Ordered l) (full : l.qualified table.table = table)
    (kind : ObjectKind) : (a.addObject table kind).Ordered l := by
  obtain ⟨tables, physicalTables, reads, _⟩ := addObject_frame a table kind
  refine ⟨?_, ?_, fun other => ?_, ?_, fun other => ?_⟩
  · rw [tables]
    exact insertOrdered_ascending TableName.linear_le ordered.tables table
  · rw [physicalTables]
    exact ordered.physicalTables
  · rw [reported_addObject]
    split
    · exact insertOrdered_ascending linear_names (ordered.objects other) table.table
    · exact ordered.objects other
  · rw [reads]
    exact ordered.reads
  · rw [tables, physicalTables, mem_insertOrdered, ordered.union]
    simp only [mem_reported_addObject]
    constructor
    · rintro (rfl | physical | ⟨kind', name, member, same⟩)
      · exact .inr ⟨kind, _, .inl ⟨rfl, rfl⟩, full.symm⟩
      · exact .inl physical
      · exact .inr ⟨kind', name, .inr member, same⟩
    · rintro (physical | ⟨kind', name, ⟨_, rfl⟩ | member, same⟩)
      · exact .inr (.inl physical)
      · exact .inl (same.trans full)
      · exact .inr (.inr ⟨kind', name, member, same⟩)

theorem Ordered.addPhysical (ordered : a.Ordered l) (table : TableName) : (a.addPhysical table).Ordered l := by
  refine ⟨insertOrdered_ascending TableName.linear_le ordered.tables table,
    insertOrdered_ascending TableName.linear_le ordered.physicalTables table, ordered.objects, ordered.reads,
    fun other => ?_⟩
  change other ∈ insertOrdered TableName.le table a.tables ↔
    other ∈ insertOrdered TableName.le table a.physicalTables ∨ _
  rw [mem_insertOrdered, mem_insertOrdered, ordered.union, or_assoc]
  rfl

/-- What an analysis may become by visiting some calls of table functions and reading some columns. -/
structure Adds (l : Layer) (calls : List (List (Expr Query))) (reads : List (TableName × String)) (a b : Analysis) :
    Prop where
  ordered : a.Ordered l → b.Ordered l
  rollups : ∃ added, b.rollups = a.rollups ++ added ∧
    Forall₂ (fun args r => Rollup.resolve l args = .ok r) calls added
  reads : b.reads ⊆ a.reads ++ reads

namespace Adds

variable {calls calls' : List (List (Expr Query))} {reads reads' : List (TableName × String)} {d : Analysis}

theorem quiet (ordered : a.Ordered l → b.Ordered l) (rollups : b.rollups = a.rollups) (reads : b.reads = a.reads) :
    Adds l [] [] a b :=
  ⟨ordered, ⟨[], by rw [rollups, append_nil], .nil⟩, by rw [reads, append_nil]; exact Subset.refl _⟩

theorem trans (first : Adds l calls reads a b) (second : Adds l calls' reads' b d) :
    Adds l (calls ++ calls') (reads ++ reads') a d := by
  obtain ⟨added, rollups, resolved⟩ := first.rollups
  obtain ⟨added', rollups', resolved'⟩ := second.rollups
  refine ⟨second.ordered ∘ first.ordered, ⟨added ++ added', ?_, rel_append resolved resolved'⟩, fun read member => ?_⟩
  · rw [rollups', rollups, append_assoc]
  · have earlier := @first.reads read
    have later := second.reads member
    simp only [mem_append] at earlier later ⊢
    tauto

theorem foldl {α : Type} {note : Analysis → α → Analysis} {k : α → List (List (Expr Query))}
    {r : α → List (TableName × String)} {xs : List α} (each : ∀ a, ∀ x ∈ xs, Adds l (k x) (r x) a (note a x))
    (a : Analysis) : Adds l (xs.flatMap k) (xs.flatMap r) a (xs.foldl note a) := by
  induction xs generalizing a with
  | nil => exact quiet id rfl rfl
  | cons x xs ih =>
    exact (each a x mem_cons_self).trans (ih (fun a y member => each a y (mem_cons_of_mem _ member)) _)

theorem addReads (fields : List Field) (a : Analysis) :
    Adds l [] (fields.map Field.source) a (fields.foldl (fun a field => a.addRead field) a) := by
  have each : ∀ a : Analysis, ∀ field ∈ fields, Adds l [] [field.source] a (a.addRead field) := by
    refine fun a field _ => ⟨fun ordered => ?_, ⟨[], (append_nil _).symm, .nil⟩, fun read member => ?_⟩
    · exact { ordered with reads := insertOrdered_ascending linear_readLe ordered.reads field.source }
    · rw [mem_append, mem_singleton, or_comm]
      exact mem_insertOrdered.mp member
  have all := foldl each a
  rwa [flatMap_eq_nil_iff.mpr fun _ _ => rfl, ← map_eq_flatMap] at all

end Adds

theorem declares_of_objectFields {c : Context} {field : Field} (member : field ∈ c.objectFields table kind) :
    field.table = table ∧ c.layer.Declares table.table field.column kind := by
  have named {β : Type} {l : List β} {name : β → String} {b : β} (found : l.find? (name · == table.table) = some b) :
      b ∈ l ∧ name b = table.table :=
    ⟨mem_of_find?_eq_some found, by simpa using find?_some found⟩
  cases kind with
  | model | metric =>
    simp only [Context.objectFields] at member
    split at member
    · rename_i m found
      obtain ⟨column, listed, rfl⟩ := mem_map.mp member
      obtain ⟨there, same⟩ := named found
      exact ⟨rfl, m, there, same, mem_map_of_mem listed⟩
    · cases member
  | cumulativeMetric =>
    simp only [Context.objectFields] at member
    split at member
    · rename_i m found
      obtain ⟨there, same⟩ := named found
      simp only [mem_cons, not_mem_nil, or_false] at member
      rcases member with rfl | rfl
      · exact ⟨rfl, m, there, same, by simp [Field.plain, CumulativeMetric.columnNames]⟩
      · exact ⟨rfl, m, there, same, by simp [Field.plain, CumulativeMetric.columnNames]⟩
    · cases member
  | view => cases member

end Steps

end Analysis

theorem Scope.sources_cons (frame : Frame) (s : Scope) :
    Scope.sources (frame :: s) = frame.fields.map Field.source ++ s.sources := rfl

theorem sources_relabeled {label : Option Alias} :
    (relabeled label fields).map Field.source = fields.map Field.source := by
  cases label with
  | none => rfl
  | some label => exact map_map

theorem Scope.mem_sources {frame : Frame} (member : frame ∈ s) (inFrame : f ∈ frame.fields) : f.source ∈ s.sources :=
  mem_flatMap.mpr ⟨frame, member, mem_map_of_mem inFrame⟩

theorem Scope.source_of_resolve (meant : s.resolve name = .ok (some f)) : f.source ∈ s.sources := by
  obtain ⟨_, frame, member, inFrame⟩ := resolve_eq_some meant
  exact mem_sources member inFrame

theorem Scope.source_of_resolveReference (meant : s.resolveReference name = .ok (some f)) : f.source ∈ s.sources := by
  obtain ⟨reference, refers, field⟩ := reference_of_resolveReference meant
  cases reference with
  | nothing => cases field
  | through g rest =>
    cases field
    obtain ⟨_, ⟨frame, member, inFrame⟩, _⟩ := relationship_of_through refers
    exact mem_sources member inFrame
  | field g =>
    cases field
    obtain ⟨meaning, resolved, rest⟩ := bind_eq_ok_iff.mp refers
    cases meaning with
    | some g =>
      cases rest
      exact source_of_resolve resolved
    | none =>
      obtain ⟨head, _, rest⟩ := bind_eq_ok_iff.mp rest
      cases head with
      | none => cases rest
      | some pair =>
        obtain ⟨g', behind⟩ := pair
        cases relationship : g'.isRelationship <;> simp [relationship, pure, Except.pure] at rest

theorem Scope.sources_of_fieldsOf {e : Expr Query}
    (found : s.fieldsOf e = .ok fields) : fields.map Field.source ⊆ s.sources := by
  obtain ⟨meanings, resolved, rest⟩ := bind_eq_ok_iff.mp found
  cases rest
  have each := Judgement.returns.mapM (fun name meaning resolved => resolved) e.names meanings resolved
  have inside : ∀ f, some f ∈ meanings → f.source ∈ s.sources := by
    generalize e.names = names at each
    clear found resolved
    induction each with
    | nil => exact fun f none => absurd none not_mem_nil
    | cons first _ ih =>
      intro f listed
      rcases mem_cons.mp listed with rfl | later
      · exact source_of_resolveReference first
      · exact ih f later
  intro read member
  obtain ⟨f, listed, rfl⟩ := mem_map.mp member
  obtain ⟨_, listed, rfl⟩ := mem_filterMap.mp listed
  exact inside f listed

theorem Scope.sources_of_fields (s : Scope) : s.fields.map Field.source ⊆ s.sources := by
  cases s with
  | nil => exact nil_subset _
  | cons frame outer => exact subset_append_left _ _

namespace Context

variable {c : Context} {a : Analysis} {site : Site}

/-- The columns that may be read at a site. -/
def readable : Site → List (TableName × String)
  | (scope, .names _) => scope.sources
  | (_, .columns fields) => fields.map Field.source
  | (_, .table _) | (_, .call _ _) | (_, .output _ _) | (_, .filter _) | (_, .refused _) | (_, .finish) => []

theorem noted_adds (passes : c.Passes site) (a : Analysis) :
    Analysis.Adds c.layer site.2.calls (readable site) a (c.noted a site) := by
  obtain ⟨scope, part⟩ := site
  cases part with
  | table name =>
    rw [noted]
    repeat' split
    · exact .quiet id rfl rfl
    · rename_i object
      obtain ⟨_, _, reads, rollups⟩ := Analysis.addObject_frame a _ _
      exact .quiet (fun ordered => ordered.addObject (qualified_of_kind object) _) rollups reads
    · exact .quiet (fun ordered => ordered.addPhysical _) rfl rfl
    · exact .quiet id rfl rfl
  | call name args =>
    obtain ⟨_, r, resolved⟩ := passes
    rw [noted, resolved]
    exact ⟨fun ordered => { ordered with }, ⟨[r], rfl, .cons resolved .nil⟩, subset_append_left _ _⟩
  | names e =>
    obtain ⟨fields, found⟩ := passes
    rw [noted, found]
    have added := Analysis.Adds.addReads (l := c.layer) fields a
    refine ⟨added.ordered, added.rollups, fun read member => ?_⟩
    rw [mem_append]
    exact (mem_append.mp (added.reads member)).imp_right fun new => Scope.sources_of_fieldsOf found new
  | columns fields => exact .addReads fields a
  | output e label =>
    rw [noted]
    repeat' split
    all_goals exact .quiet (fun ordered => { ordered with }) rfl rfl
  | filter e =>
    have each : ∀ a : Analysis, ∀ p ∈ (predicatesOf scope e).toOption.getD [],
        Analysis.Adds c.layer [] [] a (a.addPredicate p) :=
      fun a p _ => .quiet (fun ordered => { ordered with }) rfl rfl
    have all := Analysis.Adds.foldl each a
    rwa [flatMap_eq_nil_iff.mpr fun _ _ => rfl, flatMap_eq_nil_iff.mpr fun _ _ => rfl] at all
  | refused => exact passes.elim
  | finish => exact .quiet (fun ordered => { ordered with }) rfl rfl

section Sources

def tableColumns (c : Context) (sites : List Site) : List (TableName × String) :=
  sites.flatMap fun site =>
    match site.2 with
    | .table name => (c.tableFields name).map Field.source
    | .call _ _ | .names _ | .columns _ | .output _ _ | .filter _ | .refused _ | .finish => []

/-- The columns that may be read at some sites are known, or come from tables among these sites. -/
def Sourced (c : Context) (known : List (TableName × String)) (sites : List Site) : Prop :=
  ∀ site ∈ sites, readable site ⊆ known ++ c.tableColumns sites

variable {known known' : List (TableName × String)} {sites sites' : List Site}

theorem tableColumns_append : c.tableColumns (sites ++ sites') = c.tableColumns sites ++ c.tableColumns sites' :=
  flatMap_append

theorem Sourced.more (sourced : c.Sourced known sites) (more : known ⊆ known') : c.Sourced known' sites := by
  intro site member read may
  have old := sourced site member may
  rw [mem_append] at old ⊢
  exact old.imp_left fun k => more k

theorem Sourced.append (first : c.Sourced known sites) (second : c.Sourced (known ++ c.tableColumns sites) sites') :
    c.Sourced known (sites ++ sites') := by
  refine forall_mem_append.mpr ⟨fun site member read may => ?_, fun site member read may => ?_⟩
  · have old := first site member may
    simp only [tableColumns_append, mem_append] at old ⊢
    tauto
  · have old := second site member may
    simp only [tableColumns_append, mem_append] at old ⊢
    tauto

theorem Sourced.flatMap {α : Type} {l : List α} {f : α → List Site} (each : ∀ a ∈ l, c.Sourced known (f a)) :
    c.Sourced known (l.flatMap f) := by
  induction l with
  | nil => exact forall_mem_nil _
  | cons a l ih =>
    obtain ⟨first, rest⟩ := forall_mem_cons.mp each
    exact first.append ((ih rest).more (subset_append_left _ _))

theorem Sourced.single (within : readable site ⊆ known) : c.Sourced known [site] :=
  forall_mem_singleton.mpr fun _ may => mem_append_left _ (within may)

variable {steps : Query → Scope → List Site} (visits : ∀ q scope, c.Sourced scope.sources (steps q scope))
  (scope : Scope)

include visits

theorem exprSites_sourced (e : Expr Query) : c.Sourced scope.sources (exprSites steps scope e) := by
  have names : c.Sourced scope.sources [(scope, .names e)] := .single (Subset.refl _)
  refine names.append (.flatMap fun q _ => (visits q scope).more (subset_append_left _ _))

theorem exprsSites_sourced (exprs : List (Expr Query)) :
    c.Sourced scope.sources (exprs.flatMap (exprSites steps scope)) :=
  .flatMap fun e _ => exprSites_sourced visits scope e

mutual

theorem relationSites_sourced : ∀ r : Relation Query, c.Sourced scope.sources (c.relationSites steps scope r) ∧
    (c.relationFields r).map Field.source ⊆ c.tableColumns (c.relationSites steps scope r)
  | .table name none _ label _ => by
    rw [relationSites, relationFields, sources_relabeled]
    refine ⟨.single (nil_subset _), ?_⟩
    rw [tableColumns, flatMap_singleton]
    exact Subset.refl _
  | .nested first joins label => by
    obtain ⟨head, fields⟩ := relationSites_sourced first
    obtain ⟨rest, joined⟩ := joinsSites_sourced (c.relationFields first) joins
    rw [relationSites, relationFields, sources_relabeled, tableColumns_append, map_append]
    refine ⟨head.append (rest.more ?_), ?_⟩
    · grind
    · grind
  | .derived _ query _ => by
    rw [relationSites, relationFields]
    exact ⟨visits query scope, nil_subset _⟩
  | .unnest arrays _ => by
    rw [relationSites, relationFields]
    exact ⟨exprsSites_sourced visits ({} :: scope) arrays, nil_subset _⟩
  | .table _ (some _) _ _ _ | .pivot _ _ | .other _ => by
    rw [relationSites, relationFields]
    exact ⟨.single (nil_subset _), nil_subset _⟩

theorem joinsSites_sourced : ∀ (left : List Field) (js : List (Join Query)),
    c.Sourced (left.map Field.source ++ scope.sources) (c.joinsSites steps scope left js) ∧
      (c.joinsFields js).map Field.source ⊆ c.tableColumns (c.joinsSites steps scope left js)
  | left, [] => by
    rw [joinsSites, joinsFields]
    exact ⟨forall_mem_nil _, nil_subset _⟩
  | left, .mk _ _ relation constraint :: rest => by
    obtain ⟨head, fields⟩ := relationSites_sourced relation
    obtain ⟨others, joined⟩ := joinsSites_sourced (left ++ c.relationFields relation) rest
    have compared := exprsSites_sourced visits ({ fields := left ++ c.relationFields relation } :: scope)
      constraint.exprs
    rw [joinsSites, joinsFields]
    rw [Scope.sources_cons] at compared
    rw [map_append] at others
    simp only [map_append] at compared
    refine ⟨((head.more ?_).append (compared.more ?_)).append (others.more ?_), ?_⟩
    · grind
    · grind
    · simp only [tableColumns_append]; grind
    · simp only [tableColumns_append, map_append]; grind

end

theorem sourceSites_sourced (source : List (FromItem Query)) :
    c.Sourced scope.sources (c.sourceSites steps scope source) ∧
      (c.sourceFields source).map Field.source ⊆ c.tableColumns (c.sourceSites steps scope source) := by
  induction source with
  | nil => exact ⟨forall_mem_nil _, nil_subset _⟩
  | cons item rest ih =>
    obtain ⟨head, fields⟩ := relationSites_sourced visits scope item.first
    obtain ⟨others, joined⟩ := joinsSites_sourced visits scope (c.relationFields item.first) item.joins
    unfold sourceSites sourceFields at ih ⊢
    simp only [flatMap_cons, itemSites, itemFields, tableColumns_append, map_append]
    refine ⟨(head.append (others.more ?_)).append (ih.1.more (subset_append_left _ _)), ?_⟩
    · grind
    · grind

theorem clauseSites_sourced (s : Select Query) : c.Sourced scope.sources (clauseSites steps s scope) := by
  have expr := fun e => exprSites_sourced visits scope e
  have item : ∀ item : SelectItem Query, c.Sourced scope.sources (selectSites steps scope item) := by
    intro item
    have fields := scope.sources_of_fields
    have output (e : Expr Query) (label : String) : c.Sourced scope.sources [(scope, .output e label)] :=
      .single (nil_subset _)
    cases item with
    | wildcard => exact .single fields
    | qualifiedWildcard => exact .single fun _ may => fields ((filter_sublist.map Field.source).subset may)
    | expr e => exact (output e _).append ((expr e).more (subset_append_left _ _))
    | aliased e label => exact (output e _).append ((expr e).more (subset_append_left _ _))
  have filtered (e : Expr Query) : c.Sourced scope.sources (exprSites steps scope e ++ [(scope, .filter e)]) :=
    (expr e).append (.single (nil_subset _))
  unfold clauseSites
  refine (Sourced.append (.flatMap fun i _ => item i) (.more (.flatMap fun e _ => filtered e) ?_)).append
    (.more (.flatMap fun e _ => expr e) ?_)
  all_goals exact subset_append_left _ _

theorem bodySites_sourced {inner : Query → List Field}
    (fields : ∀ q scope, (inner q).map Field.source ⊆ c.tableColumns (steps q scope)) : ∀ b : Body Query,
    c.Sourced scope.sources (c.bodySites steps scope b) ∧
      (c.bodyFields inner b).map Field.source ⊆ c.tableColumns (c.bodySites steps scope b)
  | .select s => by
    obtain ⟨source, known⟩ := sourceSites_sourced visits scope s.source
    have clauses := clauseSites_sourced visits ({ fields := c.sourceFields s.source } :: scope) s
    rw [Scope.sources_cons] at clauses
    rw [bodySites, bodyFields, tableColumns_append]
    exact ⟨source.append (clauses.more (by grind)), subset_append_of_subset_left _ known⟩
  | .query q => ⟨visits q scope, fields q scope⟩
  | .setOp _ left right => by
    have first := (bodySites_sourced fields left).1
    have second := (bodySites_sourced fields right).1
    exact ⟨first.append (second.more (subset_append_left _ _)), nil_subset _⟩
  | .values rows _ => ⟨exprsSites_sourced visits ({} :: scope) rows.flatten, nil_subset _⟩
  | .table _ | .write _ => ⟨.single (nil_subset _), nil_subset _⟩

theorem withSites_sourced (recursive : Bool) : ∀ (earlier : List String) (ctes : List (Cte Query)),
    c.Sourced scope.sources (withSites steps recursive scope earlier ctes)
  | earlier, [] => forall_mem_nil _
  | earlier, cte :: rest => by
    rw [withSites]
    refine (Sourced.append ?_ (.more (visits cte.query (_ :: scope)) (subset_append_left _ _))).append
      ((withSites_sourced recursive _ rest).more (subset_append_left _ _))
    split
    · exact .single (nil_subset _)
    · exact forall_mem_nil _

omit visits scope in
theorem sitesAt_sourced : ∀ (n : Nat) (q : Query) (scope : Scope), c.Sourced scope.sources (c.sitesAt n q scope) ∧
    (c.fieldsAt n q).map Field.source ⊆ c.tableColumns (c.sitesAt n q scope)
  | 0, _, _ => ⟨forall_mem_nil _, nil_subset _⟩
  | n + 1, q, scope => by
    have visits := fun q scope => (sitesAt_sourced n q scope).1
    have fields := fun q scope => (sitesAt_sourced n q scope).2
    have same : (within q scope).sources = scope.sources := by
      unfold within
      split <;> rfl
    obtain ⟨body, known⟩ := bodySites_sourced visits (within q scope) fields q.body
    have order := exprsSites_sourced visits ({ fields := c.bodyFields (c.fieldsAt n) q.body } :: within q scope)
      (orderKeys q)
    rw [Scope.sources_cons] at order
    rw [same] at body order
    rw [sitesAt, fieldsAt, sitesWith, ownSites]
    refine ⟨(withSites_sourced visits scope q.recursive [] q.ctes).append ((body.append (order.more ?_)).append
      (.single (nil_subset _)) |>.more (subset_append_left _ _)), ?_⟩
    · grind
    · simp only [tableColumns_append]
      grind

end Sources

/-- The columns of the tables that a query names are declared by objects that are reported. -/
theorem covers_tableColumns {sites : List Site} (passes : c.PassAll sites) :
    ∀ read ∈ c.tableColumns sites, (sites.foldl c.noted a).Covers c.layer read := by
  intro read member
  obtain ⟨⟨scope, part⟩, listed, inTable⟩ := mem_flatMap.mp member
  cases part with
  | table name =>
    obtain ⟨field, inFields, rfl⟩ := mem_map.mp inTable
    unfold tableFields at inFields
    split at inFields
    · rename_i table named
      split at inFields
      · rename_i kind object
        obtain ⟨same, declares⟩ := Analysis.declares_of_objectFields inFields
        have means : c.Means scope.withNames (.table name) (.object kind table.table) := .object named object
        have found := (found_foldl_noted (a := a) passes).mpr (.inr ⟨_, listed, _, rfl, means⟩)
        refine ⟨kind, table.table, Analysis.found_object_iff.mp found, ?_, declares⟩
        rw [qualified_of_kind object]
        exact same
      · cases inFields
    · cases inFields
  | call | names | columns | output | filter | refused | finish => cases inTable

theorem consistent_of_analyze {q : Query} (analyzed : c.analyze q = .ok a) : a.Consistent c.layer ∧
    List.Forall₂ (fun args r => Rollup.resolve c.layer args = .ok r) q.calls a.rollups := by
  obtain ⟨passes, _, rfl⟩ := analyze_eq_ok.mp analyzed
  have start : Analysis.Ordered c.layer {} := by
    refine ⟨.nil, .nil, fun kind => ?_, .nil, fun table => ?_⟩
    · cases kind <;> exact .nil
    · refine ⟨fun none => absurd none not_mem_nil, ?_⟩
      rintro (none | ⟨kind, name, none, _⟩)
      · exact none
      · cases kind <;> cases none
  have added := Analysis.Adds.foldl (fun a site member => noted_adds (passes site member) a) {}
  obtain ⟨rollups, same, resolved⟩ := added.rollups
  rw [sitesAt_calls _ _ _ passes] at resolved
  have covered : ∀ read ∈ (c.gathered q).reads, (c.gathered q).Covers c.layer read := by
    intro read member
    obtain ⟨site, listed, may⟩ := mem_flatMap.mp (added.reads member)
    exact covers_tableColumns passes read ((sitesAt_sourced _ q []).1 site listed may)
  refine ⟨{ added.ordered start with covered }, ?_⟩
  change Forall₂ _ _ (c.gathered q).rollups
  rw [gathered, same]
  exact resolved

end Context

end SemanticLayer
