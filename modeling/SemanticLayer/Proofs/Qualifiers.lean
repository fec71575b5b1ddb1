import SemanticLayer.Proofs.Dereferencing
import SemanticLayer.Proofs.Gathering
import SemanticLayer.Proofs.Repeats

/-! # Objects by their plain names

Before a query is compiled its objects are written by their plain names. In a session of the layer's own catalog
and schema this changes nothing for an analysis. In any other session a plain name does not mean an object, so
there all objects turn into physical tables of the session's catalog and schema.
-/

namespace SemanticLayer

open Sql

variable {a : Analysis}

namespace Analysis

def objects (a : Analysis) : List String := a.models ++ a.metrics ++ a.cumulativeMetrics ++ a.views

theorem mem_objects {name : String} : name ∈ a.objects ↔ ∃ kind, a.Found (.object kind name) := by
  simp only [found_object_iff]
  exact mem_objects_iff

/-- The same tables are known to be read. -/
structure SameTables (a b : Analysis) : Prop where
  models : a.models = b.models
  metrics : a.metrics = b.metrics
  cumulativeMetrics : a.cumulativeMetrics = b.cumulativeMetrics
  views : a.views = b.views
  physicalTables : a.physicalTables = b.physicalTables

end Analysis

namespace Context

variable {c : Context} {name : Path} {table : TableName} {g : Query → Query} {q : Query}

theorem stripName_named (named : c.session.tableName name = .ok table) :
    ∃ table', c.session.tableName (c.stripName name) = .ok table' := by
  rcases c.stripName_cases name with same | ⟨_, _, _, _, plain⟩
  · exact ⟨table, by rw [same, named]⟩
  · exact ⟨_, by rw [plain]; rfl⟩

theorem stripName_faithful (own : c.session = .ofLayer c.layer) : c.Faithful c.stripName where
  named name := by
    rintro ⟨table, named⟩
    exact stripName_named named
  fields name := by
    rcases c.stripName_cases name with same | ⟨table, kind, named, object, plain⟩
    · rw [same]
    · rw [plain, tableFields, tableFields, tableName_object own object, named]
  rollup name rolled := c.stripName_rollup rolled

/-- Where names that do not say their catalog and schema belong to others than the layer's, a plain name means no
    object. -/
theorem kind_plain (foreign : c.session ≠ .ofLayer c.layer) (name : String) :
    c.kind? ⟨c.session.catalog, c.session.schema, name⟩ = none := by
  unfold kind?
  split
  · rename_i owned
    simp only [Layer.owns, Bool.and_eq_true, beq_iff_eq] at owned
    refine absurd ?_ foreign
    rw [Session.ofLayer, ← owned.1, ← owned.2]
  · rfl

theorem kind_stripName (foreign : c.session ≠ .ofLayer c.layer)
    (named : c.session.tableName (c.stripName name) = .ok table) : c.kind? table = none := by
  rcases c.stripName_plain_or_other name with ⟨part, plain⟩ | ⟨same, other⟩
  · rw [plain] at named
    cases named
    exact kind_plain foreign _
  · rw [same] at named
    exact other table named

mutual

theorem acceptsRelation_strip : ∀ {r : Relation Query}, c.AcceptsRelation r →
    c.AcceptsRelation (r.mapTables c.stripName g)
  | .table name none _ _ _, accepted => by
    rw [AcceptsRelation] at accepted
    rw [Relation.mapTables_table, AcceptsRelation]
    obtain ⟨table, named⟩ := accepted
    exact stripName_named named
  | .table name (some args) _ _ _, accepted => by
    rw [AcceptsRelation] at accepted
    obtain ⟨rolled, r, resolved⟩ := accepted
    rw [Relation.mapTables_call, AcceptsRelation, c.stripName_rollup rolled]
    exact ⟨rolled, r, Rollup.resolve_mapQueries g resolved⟩
  | .nested first joins _, accepted => by
    rw [AcceptsRelation] at accepted
    rw [Relation.mapTables_nested, AcceptsRelation]
    exact ⟨acceptsRelation_strip accepted.1, acceptsJoins_strip accepted.2⟩
  | .derived _ _ _, _ => by
    rw [Relation.mapTables_derived, AcceptsRelation]
    trivial
  | .unnest _ _, _ => by
    rw [Relation.mapTables_unnest, AcceptsRelation]
    trivial
  | .pivot _ _, accepted | .other _, accepted => by
    rw [AcceptsRelation] at accepted
    exact accepted.elim

theorem acceptsJoins_strip : ∀ {js : List (Join Query)}, c.AcceptsJoins js →
    c.AcceptsJoins (Join.mapTablesAll c.stripName g js)
  | [], _ => by
    rw [Join.mapTablesAll_nil, AcceptsJoins]
    trivial
  | .mk _ _ relation _ :: rest, accepted => by
    rw [AcceptsJoins] at accepted
    rw [Join.mapTablesAll_cons, AcceptsJoins]
    exact ⟨acceptsRelation_strip accepted.1, acceptsJoins_strip accepted.2⟩

end

theorem accepts_strip {x : Query} (accepted : c.Accepts x) : c.Accepts (x.mapTables c.stripName) := by
  have body : ∀ {g : Query → Query} {b : Body Query}, c.AcceptsBody b →
      c.AcceptsBody (b.mapTables c.stripName g) := by
    intro g b
    induction b with
    | select s =>
      intro accepted item member
      obtain ⟨item, original, rfl⟩ := List.mem_map.mp member
      exact ⟨acceptsRelation_strip (accepted item original).1, acceptsJoins_strip (accepted item original).2⟩
    | setOp word left right first second => exact fun accepted => ⟨first accepted.1, second accepted.2⟩
    | query | values => exact fun _ => trivial
    | table | write => exact False.elim
  rw [Accepts, Query.body_mapTables, Query.names_mapTables]
  exact ⟨body accepted.1, accepted.2⟩

section Foreign

variable (foreign : c.session ≠ .ofLayer c.layer)

variable {bound : List String} {mention : Mention}

include foreign

theorem not_object_of_stripped {kind : ObjectKind} {name : String} :
    ¬c.Means bound (mention.mapName c.stripName) (.object kind name) := by
  cases mention with
  | call => nofun
  | table written =>
    rintro (⟨named, object⟩ | _ | _)
    rw [kind_stripName foreign named] at object
    cases object

/-- A physical table is still meant, and an object turns into a physical table of the session. -/
theorem physical_stripped : c.Means bound (mention.mapName c.stripName) (.physical table) ↔
      c.Means bound mention (.physical table) ∨ ∃ kind name, c.Means bound mention (.object kind name) ∧
        table = ⟨c.session.catalog, c.session.schema, name⟩ := by
  cases mention with
  | call =>
    constructor
    · nofun
    · rintro (means | ⟨_, _, means, _⟩) <;> cases means
  | table written =>
    rw [Mention.mapName]
    rcases c.stripName_cases written with same | ⟨full, kind, named, object, plain⟩
    · rw [same]
      refine ⟨.inl, Or.rec id ?_⟩
      -- The object that the name means would not have kept its name.
      rintro ⟨kind, name, means, _⟩
      have kept : Mention.mapName c.stripName (.table written) = .table written := by rw [Mention.mapName, same]
      rw [← kept] at means
      exact absurd means (not_object_of_stripped foreign)
    · have named' : c.session.tableName [.ofName full.table] =
          .ok ⟨c.session.catalog, c.session.schema, full.table⟩ := by
        simp [Session.tableName, Path.values]
      have meant : c.Means bound (.table written) (.object kind full.table) := .object named object
      rw [plain]
      constructor
      · rintro (_ | ⟨free, found, physical⟩ | _)
        cases named'.symm.trans found
        exact .inr ⟨kind, full.table, meant, rfl⟩
      · rintro (means | ⟨kind', name, means, rfl⟩)
        · cases meant.unique means
        · cases meant.unique means
          refine .physical ?_ named' (kind_plain foreign _)
          rintro ⟨part, same, _, free⟩
          cases same
          rw [Ident.ofName_value, layer_kind_of_kind object] at free
          cases free

theorem analyze_strip_foreign (analyzed : c.analyze q = .ok a) : ∃ a', c.analyze (c.strip q) = .ok a' := by
  have levels : ∀ y, (c.strip q).Contains .visited y → c.Accepts y ∧ c.Fieldless y.body.mentions := by
    intro y contained
    rw [strip_eq_mapTables] at contained
    obtain ⟨x, original, rfl⟩ := (Query.contains_mapTables _).mp contained
    refine ⟨accepts_strip (accepts_of_analyze analyzed original), fun name member => ?_⟩
    rw [Query.body_mapTables, Body.mentions_mapTables] at member
    obtain ⟨mention, _, same⟩ := List.mem_map.mp member
    cases mention with
    | call => cases same
    | table written =>
      cases same
      unfold tableFields
      split
      · rename_i table named
        rw [kind_stripName foreign named]
      · rfl
  have passes : c.PassAll (c.sites (c.strip q) []) := sitesAt_blank _ _ levels [] .nil
  have checked : (c.gathered (c.strip q)).checkRollups = .ok () := by
    refine Analysis.checkRollups_eq_ok.mpr fun r _ found => ?_
    obtain ⟨bound, mention', reads, means⟩ := (found_gathered passes).mp found
    rw [strip_eq_mapTables] at reads
    obtain ⟨mention, _, rfl⟩ := (Query.reads_mapTables _).mp reads
    exact not_object_of_stripped foreign means
  exact ⟨_, analyze_eq_ok.mpr ⟨passes, checked, rfl⟩⟩

end Foreign

/-- In a session of the layer, an analysis notes the same under plain names. -/
theorem analyze_strip_own (own : c.session = .ofLayer c.layer)
    (analyzed : c.analyze q = .ok a) : ∃ a', c.analyze (c.strip q) = .ok a' ∧ a'.SameTables a := by
  obtain ⟨passes, checked, rfl⟩ := analyze_eq_ok.mp analyzed
  have follows := (sitesAt_mapTables (stripName_faithful own) q.height _ q (Nat.le_refl _) (Nat.le_refl _)).1
  have passes' : c.PassAll (c.sites (c.strip q) []) := by
    rw [strip_eq_mapTables]
    exact follows [] [] (fun _ => rfl) passes
  have found (f : Finding) : (c.gathered (c.strip q)).Found f ↔ (c.gathered q).Found f := by
    rw [found_gathered passes', found_gathered passes]
    constructor
    · rintro ⟨bound, _, stripped, means⟩
      rw [strip_eq_mapTables] at stripped
      obtain ⟨mention, reads, rfl⟩ := (Query.reads_mapTables _).mp stripped
      cases mention with
      | table name => exact ⟨bound, _, reads, (c.means_table_stripName own).mp means⟩
      | call name args =>
        -- Only roll-ups are called, and they keep their name.
        obtain ⟨_, ⟨⟩, _⟩ | ⟨_, ⟨⟩ | ⟨⟩ | ⟨named, _⟩, _⟩ := analyze_finds analyzed reads
        rw [Mention.mapName, c.stripName_rollup named] at means
        exact ⟨bound, _, reads, means⟩
    · rintro ⟨bound, mention, reads, means⟩
      refine ⟨bound, mention.mapName c.stripName, ?_, c.means_stripName own means⟩
      rw [strip_eq_mapTables]
      exact (Query.reads_mapTables _).mpr ⟨mention, reads, rfl⟩
  have checked' : (c.gathered (c.strip q)).checkRollups = .ok () := by
    rw [Analysis.checkRollups_eq_ok] at checked ⊢
    exact fun r rolled read => checked r ((found _).mp rolled) ((found _).mp read)
  obtain ⟨ordered, _⟩ := consistent_of_analyze analyzed
  have analyzed' := analyze_eq_ok.mpr ⟨passes', checked', rfl⟩
  obtain ⟨ordered', _⟩ := consistent_of_analyze analyzed'
  have objects (kind : ObjectKind) :=
    (ordered'.objects kind).eq_of_mem_iff linear_names (ordered.objects kind) fun name => by
      rw [← Analysis.found_object_iff, ← Analysis.found_object_iff]
      exact found (.object kind name)
  refine ⟨_, analyzed', objects .model, objects .metric, objects .cumulativeMetric, objects .view, ?_⟩
  exact ordered'.physicalTables.eq_of_mem_iff TableName.linear_le ordered.physicalTables fun table =>
    found (.physical table)

/-- In any other session, plain names mean physical tables of that session. -/
theorem tables_of_strip_foreign (foreign : c.session ≠ .ofLayer c.layer) {a' : Analysis}
    (analyzed : c.analyze q = .ok a) (analyzed' : c.analyze (c.strip q) = .ok a') :
    a'.objects = [] ∧ ∀ table, table ∈ a'.physicalTables ↔ table ∈ a.physicalTables ∨
      ∃ name ∈ a.objects, table = ⟨c.session.catalog, c.session.schema, name⟩ := by
  have stripped : ∀ {bound : List String} {mention' : Mention}, (c.strip q).Reads .visited [] bound mention' ↔
      ∃ mention, q.Reads .visited [] bound mention ∧ mention' = mention.mapName c.stripName := by
    rw [strip_eq_mapTables]
    exact Query.reads_mapTables _
  constructor
  · refine List.eq_nil_iff_forall_not_mem.mpr fun name member => ?_
    obtain ⟨kind, found⟩ := Analysis.mem_objects.mp member
    obtain ⟨bound, mention', reads, means⟩ := found_is_read analyzed' found
    obtain ⟨mention, _, rfl⟩ := stripped.mp reads
    exact not_object_of_stripped foreign means
  · intro table
    constructor
    · intro member
      have found : a'.Found (.physical table) := member
      obtain ⟨bound, mention', reads, means⟩ := found_is_read analyzed' found
      obtain ⟨mention, original, rfl⟩ := stripped.mp reads
      rcases (physical_stripped foreign).mp means with physical | ⟨kind, name, object, rfl⟩
      · exact .inl (found_of_reads analyzed original physical)
      · exact .inr ⟨name, Analysis.mem_objects.mpr ⟨kind, found_of_reads analyzed original object⟩, rfl⟩
    · intro member
      -- Both kinds of tables come from a mention that is read and still means the table when it is stripped.
      have meant : ∃ bound mention, q.Reads .visited [] bound mention ∧
          c.Means bound (mention.mapName c.stripName) (.physical table) := by
        rcases member with member | ⟨name, member, same⟩
        · have found : a.Found (.physical table) := member
          obtain ⟨bound, mention, reads, means⟩ := found_is_read analyzed found
          exact ⟨bound, mention, reads, (physical_stripped foreign).mpr (.inl means)⟩
        · obtain ⟨kind, found⟩ := Analysis.mem_objects.mp member
          obtain ⟨bound, mention, reads, means⟩ := found_is_read analyzed found
          exact ⟨bound, mention, reads, (physical_stripped foreign).mpr (.inr ⟨kind, name, means, same⟩)⟩
      obtain ⟨bound, mention, reads, means⟩ := meant
      exact found_of_reads analyzed' (stripped.mpr ⟨mention, reads, rfl⟩) means

/-- Writing objects by their plain names keeps what is read if the session is that of the layer. In any other
    session no object is read any more: each one has turned into a physical table of the session. -/
theorem analyze_strip (c : Context) (q : Query) (a : Analysis) (analyzed : c.analyze q = .ok a) :
    ∃ a', c.analyze (c.strip q) = .ok a' ∧
      (c.session = .ofLayer c.layer → a'.SameTables a) ∧
      (c.session ≠ .ofLayer c.layer → a'.objects = [] ∧ ∀ table, table ∈ a'.physicalTables ↔
        table ∈ a.physicalTables ∨ ∃ name ∈ a.objects, table = ⟨c.session.catalog, c.session.schema, name⟩) := by
  by_cases own : c.session = .ofLayer c.layer
  · obtain ⟨a', analyzed', same⟩ := analyze_strip_own own analyzed
    exact ⟨a', analyzed', fun _ => same, fun foreign => absurd own foreign⟩
  · obtain ⟨a', analyzed'⟩ := analyze_strip_foreign own analyzed
    exact ⟨a', analyzed', fun isOwn => absurd isOwn own, fun _ => tables_of_strip_foreign own analyzed analyzed'⟩

theorem album_lost_in_other_session : ∃ q a a', readQuery "SELECT * FROM mdl.test.Album" = .ok q ∧
    analyze ⟨⟨"other", "other"⟩, sampleLayer⟩ q = .ok a ∧ a.models = ["Album"] ∧ a.physicalTables = [] ∧
    analyze ⟨⟨"other", "other"⟩, sampleLayer⟩ (strip ⟨⟨"other", "other"⟩, sampleLayer⟩ q) = .ok a' ∧
    a'.objects = [] ∧ ⟨"other", "other", "Album"⟩ ∈ a'.physicalTables := by
  let c : Context := ⟨⟨"other", "other"⟩, sampleLayer⟩
  have run : ∃ q, readQuery "SELECT * FROM mdl.test.Album" = .ok q ∧ ∃ a, c.analyze q = .ok a ∧
      a.models = ["Album"] ∧ a.physicalTables = [] := by
    decide +kernel
  obtain ⟨q, read, a, analyzed, models, physical⟩ := run
  have foreign : c.session ≠ .ofLayer c.layer := by decide +kernel
  obtain ⟨a', analyzed', _, others⟩ := analyze_strip c q a analyzed
  obtain ⟨lost, turned⟩ := others foreign
  refine ⟨q, a, a', read, analyzed, models, physical, analyzed', lost, (turned _).mpr (.inr ⟨"Album", ?_, rfl⟩)⟩
  simp [Analysis.objects, models]

end Context

end SemanticLayer
