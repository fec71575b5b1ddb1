import SemanticLayer.Proofs.RollupText
import SemanticLayer.Proofs.Substitution

/-! # Serving from the cache

A query that is compiled for the cache reads WITH entries and cache tables only. The entries of objects
that hold data read the cache tables that were looked up for them.
-/

namespace SemanticLayer

open Sql List
open With (names nameOf)

namespace Context

variable {c : Context} {q q' q₁ q₂ : Query} {mention : Mention} {name : String} {bound : List String}

section Links

variable {a : Analysis}

/-- If a mention means an object, it is a plain name, and for some kinds there is an entry of it. -/
def Refers (c : Context) (kinds : ObjectKind → Prop) (q : Query) (mention : Mention) : Prop :=
  ∀ bound kind name, c.Means bound mention (.object kind name) →
    (∃ part, mention = .table [part]) ∧ (kinds kind → name ∈ names q)

/-- What a query mentions in its clauses and in the entries that hold no data. -/
abbrev Keeps (c : Context) (q : Query) (mention : Mention) : Prop :=
  q.MentionsIn (fun name => ¬c.layer.IsData name) .visited mention

theorem kept_of_data (data : c.layer.IsData name) : ¬¬c.layer.IsData name :=
  fun other => other data

theorem name_of_means (own : c.session = .ofLayer c.layer) {part : Ident} {kind : ObjectKind}
    (means : c.Means bound (.table [part]) (.object kind name)) : name = part.value := by
  cases means with
  | object named _ =>
    rw [tableName_plain own] at named
    cases named
    rfl

/-- Relationships whose conditions hold no query. -/
def PlainConditions (l : Layer) : Prop :=
  ∀ r ∈ l.manifest.relationships, ∀ condition, Expr.parseItem r.condition = .ok condition → condition.queries = []

theorem PlainConditions.declared {l : Layer} (conditions : PlainConditions l) {j : RelatedJoin}
    (declared : j.Declared l) : j.condition.queries = [] := by
  obtain ⟨r, member, condition, parsed, pairs⟩ := declared.relationship
  rw [conditions r member condition parsed, forall₂_nil_left_iff] at pairs
  exact pairs

theorem JoinStage.refers (own : c.session = .ofLayer c.layer) (conditions : PlainConditions c.layer)
    {targets : List String} (stage : c.JoinStage targets q q') {kinds : ObjectKind → Prop}
    (refers : ∀ mention, c.Keeps q mention → c.Refers kinds q mention) (keeps : c.Keeps q' mention) :
    c.Refers kinds q' mention := by
  intro bound kind name means
  rcases (stage.evolves .visited).back _ (fun _ _ model => kept_of_data (Layer.isData_of_model model))
    mention keeps with keeps | ⟨target, joined, rfl⟩ | ⟨j, declared, x, member, _⟩
  · obtain ⟨plain, linked⟩ := refers mention keeps bound kind name means
    exact ⟨plain, fun isKind => (stage.evolves .visited).kept name (linked isKind)⟩
  · refine ⟨⟨_, rfl⟩, fun _ => ?_⟩
    rw [name_of_means own means, Ident.ofName_value]
    exact stage.joined target joined
  · rw [conditions.declared declared] at member
    cases member

theorem ModelStage.refers {opened : Query} (stage : c.ModelStage opened a q q') (keeps : c.Keeps q' mention) :
    c.Refers (fun kind => kind = .model ∨ kind = .view) q' mention := by
  intro bound kind name means
  rcases (stage.evolves .visited).back _ (fun _ _ model => kept_of_data (Layer.isData_of_model model))
    mention keeps with keeps | ⟨⟨⟩⟩
  have found := found_of_mentions stage.analyzed keeps.mentions means fun _ same => nomatch same
  refine ⟨stage.plain mention keeps.mentions bound kind name means, ?_⟩
  rintro (rfl | rfl)
  · exact stage.models name found
  · exact (stage.evolves .visited).kept name (stage.views name found)

theorem MetricStage.refers (own : c.session = .ofLayer c.layer) (metrics : ∀ m ∈ c.layer.manifest.metrics, m.Plain)
    {rolledUp : List Metric} (stage : c.MetricStage a rolledUp q q')
    (refers : ∀ mention, c.Keeps q mention → c.Refers (fun kind => kind = .model ∨ kind = .view) q mention)
    (keeps : c.Keeps q' mention) : c.Refers (fun _ => True) q' mention := by
  intro bound kind name means
  rcases (stage.evolves .visited).back _ (fun _ _ data => kept_of_data data) mention keeps with
    keeps | ⟨⟨_, r, x, ⟨args, _, rolled⟩, noted, read, mentions⟩, _⟩
  · have found := found_of_mentions stage.analyzed keeps.mentions means fun _ same => nomatch same
    obtain ⟨plain, linked⟩ := refers mention keeps bound kind name means
    refine ⟨plain, fun _ => ?_⟩
    cases kind with
    | model => exact (stage.evolves .visited).kept name (linked (.inl rfl))
    | view => exact (stage.evolves .visited).kept name (linked (.inr rfl))
    | metric => exact stage.metrics name found
    | cumulativeMetric => exact stage.cumulativeMetrics name found
  · obtain ⟨isMetric, allowed⟩ := Rollup.resolve_eq_ok rolled
    obtain ⟨part, rfl, base⟩ := Rollup.mentions_base (metrics _ isMetric) allowed read mentions
    refine ⟨⟨part, rfl⟩, fun _ => ?_⟩
    rw [name_of_means own means, base]
    exact stage.bases r.metric noted

/-- What a compiled query mentions outside the entries of data is no roll-up, and an object that it
    means has an entry. -/
theorem compile_links (own : c.session = .ofLayer c.layer) (conditions : PlainConditions c.layer)
    (metrics : ∀ m ∈ c.layer.manifest.metrics, m.Plain) (compiled : c.compile q = .ok q') (keeps : c.Keeps q' mention) :
    ¬mention.IsRollup ∧ c.Refers (fun _ => True) q' mention := by
  obtain ⟨expanded, grouped, ⟨models, joins, rolled⟩, keys⟩ := expands_of_compile compiled
  constructor
  · intro isRollup
    rcases (keys.evolves .visited).back _ (fun _ _ model => kept_of_data (Layer.isData_of_model model))
      mention keeps with keeps | ⟨target, _, rfl⟩ | ⟨j, declared, x, member, _⟩
    · exact rolled.replaced _ (fun _ _ data => kept_of_data data) .visited mention keeps isRollup
    · obtain ⟨_, _, same, _⟩ := isRollup
      cases same
    · rw [conditions.declared declared] at member
      cases member
  · exact keys.refers own conditions (fun _ => rolled.refers own metrics
      fun _ => joins.refers own conditions fun _ => models.refers) keeps

end Links

section Stage

variable {lookup : CacheLookup} {used : List (Cte Query)} {a : Analysis} {cte' : Cte Query}

theorem CacheStage.table_of_data (stage : c.CacheStage lookup used a q q')
    (full : c.FullyCached lookup a q q') (member : cte' ∈ q'.ctes) (data : c.layer.IsData (nameOf cte')) :
    ∃ table, lookup (c.layer.qualified (nameOf cte')) = some table ∧ readTable table = .ok cte'.query := by
  obtain ⟨cte, old, used⟩ := stage.entry member
  obtain ⟨name, ⟨table, use, read⟩ | ⟨others, rfl⟩⟩ := useCache_eq_ok used
  · rw [nameOf, name]
    exact ⟨table, lookup_of_cacheUse use, read⟩
  · cases use : c.cacheUse lookup cte' with
    | table table => exact absurd use (others table)
    | keep => exact absurd data (cacheUse_eq_keep_iff.mp use)
    | uncached => exact absurd use (full.cached cte' old (With.mem_names_of_mem member))

/-- What is mentioned outside cache tables was mentioned outside the entries of data. -/
theorem CacheStage.keeps (stage : c.CacheStage lookup used a q q') (full : c.FullyCached lookup a q q')
    (quotes : ∀ object table, lookup object = some table → '"' ∉ table.toList)
    (mentions : q'.Mentions .visited mention) :
    c.Keeps q mention ∨ ∃ object table, lookup object = some table ∧ mention = .table [⟨table, some '"'⟩] := by
  rcases Query.mentions_iff.mp mentions with here | inner | ⟨cte', member, mentions⟩
  · rw [stage.prunes.rest.body] at here
    exact .inl (.inl here)
  · rw [stage.prunes.rest.inner_eq] at inner
    exact .inl (.inr (.inl inner))
  · by_cases data : c.layer.IsData (nameOf cte')
    · obtain ⟨table, found, read⟩ := stage.table_of_data full member data
      rw [readTable_eq (quotes _ table found), Except.ok.injEq] at read
      rw [← read] at mentions
      exact .inr ⟨_, table, found, Query.ofTable_mentions mentions⟩
    · obtain ⟨cte, old, used⟩ := stage.entry member
      obtain ⟨name, ⟨table, use, _⟩ | ⟨_, rfl⟩⟩ := useCache_eq_ok used
      · rw [nameOf, name] at data
        rw [cacheUse_eq_keep_iff.mpr data] at use
        cases use
      · exact .inl (.inr (.inr ⟨cte', old, data, mentions⟩))

theorem CacheStage.present (stage : c.CacheStage lookup used a q q')
    (member : name ∈ names q) (mentioned : name ∈ With.mentioned q') : name ∈ names q' := by
  obtain ⟨cte, found, rfl⟩ := mem_map.mp member
  obtain ⟨cte', found', use⟩ := forall₂_exists stage.uses cte found
  have same : nameOf cte' = nameOf cte := congrArg Ident.value (useCache_eq_ok use).1
  rw [← same] at mentioned ⊢
  exact With.mem_names_of_mem (stage.prunes.kept cte' found' (.inr mentioned))

/-- Everything that a served query reads is a WITH name, the name of an entry, or a cache table. -/
theorem CacheStage.reads (own : c.session = .ofLayer c.layer) (stage : c.CacheStage lookup used a q q')
    (full : c.FullyCached lookup a q q') (quotes : ∀ object table, lookup object = some table → '"' ∉ table.toList)
    (links : ∀ mention, c.Keeps q mention → ¬mention.IsRollup ∧ c.Refers (fun _ => True) q mention)
    (reads : q'.Reads .visited [] bound mention) : ∃ name, mention = .table name ∧
      ((∃ part, name = [part] ∧ (part.value ∈ bound ∨ part.value ∈ names q')) ∨
        ∃ object table, lookup object = some table ∧ c.session.tableName name = .ok (c.layer.qualified table)) := by
  rcases analyze_finds stage.analyzed reads with ⟨name, rfl, part, rfl, member, _⟩ | ⟨finding, means, found⟩
  · exact ⟨[part], rfl, .inl ⟨part, rfl, .inl member⟩⟩
  · rcases stage.keeps full quotes reads.mentions with keeps | ⟨object, table, looked, rfl⟩
    · obtain ⟨noRollup, refers⟩ := links mention keeps
      cases means with
      | @object name table kind named isObject =>
        obtain ⟨⟨part, same⟩, linked⟩ := refers bound kind _ (.object named isObject)
        cases same
        have value := name_of_means own (Means.object named isObject : c.Means bound _ _)
        refine ⟨_, rfl, .inl ⟨part, rfl, .inr ?_⟩⟩
        have last : (Mention.table [part]).name.values.getLast? = some part.value := rfl
        rcases With.mem_mentioned reads.mentions last with mentioned | present
        · exact stage.present (value ▸ linked trivial) mentioned
        · exact present
      | @physical name table _ named _ =>
        obtain ⟨cte, _, cached, used, rfl⟩ := full.physical table found
        refine ⟨name, rfl, .inr ⟨_, cached, lookup_of_cacheUse used, ?_⟩⟩
        rw [named, own]
        rfl
      | @rollup name args r isName _ => exact absurd ⟨name, args, rfl, isName⟩ noRollup
    · refine ⟨_, rfl, .inr ⟨object, table, looked, ?_⟩⟩
      exact tableName_plain own _

end Stage

end Context

/-- A query that can be answered from cache tables. -/
structure Served (l : Layer) (lookup : CacheLookup) (q : Query) : Prop where
  /-- Entries of models, metrics and cumulative metrics read the tables looked up for them. -/
  entries : ∀ cte ∈ q.ctes, l.IsData (nameOf cte) → ∃ table,
    lookup (l.qualified (nameOf cte)) = some table ∧ cte.query = .ofTable table
  /-- Everything that is read is a WITH name that is visible there, the name of an entry, or a cache
      table. -/
  reads : ∀ bound mention, q.Reads .visited [] bound mention → ∃ name, mention = .table name ∧
    ((∃ part, name = [part] ∧ (part.value ∈ bound ∨ part.value ∈ names q)) ∨
      ∃ object table, lookup object = some table ∧ (Session.ofLayer l).tableName name = .ok (l.qualified table))

/-- What is served reads the cache only, if cache tables have names without quotes, conditions of
    relationships hold no query, and metrics are plain. -/
theorem served_of_compileQueryCached (l : Layer) (b : Backend) (lookup : CacheLookup) (q served : Query)
    (conditions : Context.PlainConditions l) (metrics : ∀ m ∈ l.manifest.metrics, m.Plain)
    (quotes : ∀ object table, lookup object = some table → '"' ∉ table.toList)
    (answer : Context.compileQueryCached ⟨.ofLayer l, l⟩ b lookup q = .ok (some served)) : Served l lookup served := by
  obtain ⟨live, cached, compiled, pointed, rfl⟩ := Context.compileQueryCached_eq_some answer
  obtain ⟨used, a, stage, full⟩ := Context.compileCached_stage _ _ _ _ pointed
  have full := full rfl
  refine ⟨fun cte member data => ?_, fun bound mention reads => ?_⟩
  · rw [Backend.renameFunctions_ctes] at member
    obtain ⟨cte, old, rfl⟩ := mem_map.mp member
    obtain ⟨table, found, read⟩ := stage.table_of_data full old data
    rw [Context.readTable_eq (quotes _ table found), Except.ok.injEq] at read
    refine ⟨table, found, ?_⟩
    rw [← read, Backend.renameFunctions_ofTable]
  · have alike := b.renameFunctions_alike (fun _ => False) (fun _ => False) .visited cached
    rcases (alike.follows [] bound).2 mention reads with ⟨_, before, rfl⟩ | ⟨⟨⟩⟩
    rw [alike.names_eq]
    exact stage.reads rfl full quotes (fun _ => Context.compile_links rfl conditions metrics compiled) before

/-- Orders with a metric that has a dimension and a measure. -/
def salesManifest : Manifest :=
  { ordersManifest with
    metrics := [{ name := "Revenue", baseObject := "Orders"
                  dimension := [{ name := "custkey", typeName := "integer" }]
                  measure := [{ name := "total", typeName := "integer", expression := some "sum(price)" }]
                  timeGrain := [{ name := "day", refColumn := "day", dateParts := [.year] }] }] }

def salesLayer : Layer := ⟨salesManifest, rfl⟩

theorem sales_plainConditions : Context.PlainConditions salesLayer := by
  intro r member
  cases member

theorem sales_plain : ∀ m ∈ salesLayer.manifest.metrics, m.Plain := by
  intro m member
  cases mem_singleton.mp member
  refine ⟨fun c member => ?_, fun r same allowed t next ts found read => ?_, fun ⟨_, _, unit⟩ same allowed => ?_⟩
  · rcases mem_pair.mp member with rfl | rfl
    · refine ⟨[.word "custkey" none], by decide +kernel, fun t next ts found read => ?_⟩
      rcases mem_pair.mp next with rfl | rfl <;> cases read <;> exact ⟨rfl, rfl⟩
    · refine ⟨[.word "sum" none, .symbol "(", .word "price" none, .symbol ")", .word "AS" none, .word "total" none],
        by decide +kernel, fun t next ts found read => ?_⟩
      rcases mem_pair.mp next with rfl | rfl <;> cases read <;> exact ⟨rfl, rfl⟩
  · have grain := allowed.grain
    rw [same] at grain
    rw [Rollup.periodTokens, mem_singleton.mp grain] at read
    rcases mem_pair.mp next with rfl | rfl <;> cases read <;> exact ⟨rfl, rfl⟩
  · cases same
    cases mem_singleton.mp allowed.grain
    cases mem_singleton.mp (allowed.unit.resolve_left (cons_ne_nil _ _))
    unfold Rollup.ScannedByParts
    decide +kernel

theorem served_sales : ∃ q served, readQuery "SELECT * FROM Recent, roll_up(Revenue, day, YEAR)" = .ok q ∧
    Context.compileQueryCached ⟨.ofLayer salesLayer, salesLayer⟩ .sqlite
      (lookupIn [("Orders", "Orders_1")]) q = .ok (some served) ∧
    names served = ["Orders", "Recent"] ∧ Served salesLayer (lookupIn [("Orders", "Orders_1")]) served := by
  have run : ∃ q, readQuery "SELECT * FROM Recent, roll_up(Revenue, day, YEAR)" = .ok q ∧
      ∃ answer, Context.compileQueryCached ⟨.ofLayer salesLayer, salesLayer⟩ .sqlite
        (lookupIn [("Orders", "Orders_1")]) q = .ok answer ∧ answer.map names = some ["Orders", "Recent"] := by
    decide +kernel
  obtain ⟨q, read, answer, compiled, named⟩ := run
  obtain ⟨served, rfl, entries⟩ := Option.map_eq_some_iff.mp named
  refine ⟨q, served, read, compiled, entries, served_of_compileQueryCached salesLayer .sqlite _ q served
    sales_plainConditions sales_plain (fun object table found => ?_) compiled⟩
  obtain ⟨_, rfl⟩ : object.table = "Orders" ∧ table = "Orders_1" := by
    simpa using mem_of_lookupIn found
  decide

end SemanticLayer
