import SemanticLayer.Proofs.Copying

/-! # Deployments one after another

After a deployment, an object whose task is done is answered from the table that this deployment has
made. An object whose task has failed keeps the table it had, whichever deployment that one comes from.
-/

namespace SemanticLayer

open List

/-- A layer is deployed while the data source answers by some rules. -/
structure Deployment where
  layer : Layer
  rules : List Simulation.Rule

def Deployment.answer (d : Deployment) : String → Except SourceError Records :=
  Simulation.Source.answer { rules := d.rules }

/-- The table that a task of an object makes, or why it fails. -/
def Deployment.outcome (d : Deployment) (settings : CacheSettings) (key : TableName) (id : Nat) :
    Except CacheError Store :=
  d.layer.materialize settings d.answer key (Task.tableName key id)

theorem Layer.ofManifest_manifest (l : Layer) : Layer.ofManifest l.manifest = .ok l := by
  unfold Layer.ofManifest
  split
  · rfl
  · rename_i e faulty
    rw [l.checked] at faulty
    cases faulty

namespace Simulation

variable {settings : CacheSettings} {ds : List Deployment}

def deployNext (s : Simulation) (d : Deployment) : Except ProcessorError (Option (List Task)) × Simulation :=
  (s.setRules d.rules).deploy d.layer.manifest

def deployAll (s : Simulation) (ds : List Deployment) : Simulation :=
  ds.foldl (fun s d => (s.deployNext d).2) s

/-- The table of an object was made in one of the deployments, and holds the rows that the source gave then.
    In each later one the object was wanted and its run failed. -/
def MadeBy (settings : CacheSettings) (ds : List Deployment) (store : Store) (key : TableName) (table : String) :
    Prop :=
  ∃ earlier d later id alone, ds = earlier ++ d :: later ∧ key ∈ d.layer.preAggregated ∧
    table = Task.tableName key id ∧ d.outcome settings key id = .ok alone ∧
    store.table? table = alone.table? table ∧
    ∀ d' ∈ later, key ∈ d'.layer.preAggregated ∧ ∃ id e, d'.outcome settings key id = .error e

section Sequences

variable {s s' : Simulation} {d : Deployment}

/-- What a deployment starts from. -/
def adopt (s : Simulation) (d : Deployment) : Simulation :=
  { s with processor := { s.processor with layer := d.layer }, source := { s.source with rules := d.rules } }

theorem deployNext_eq (s : Simulation) (d : Deployment) :
    s.deployNext d = ((s.adopt d).refresh.1.mapError .cache, (s.adopt d).refresh.2) := by
  unfold deployNext deploy
  rw [Layer.ofManifest_manifest]
  rfl

theorem fresh_atRest (p : Processor) (sizeLimit retryDelay : Nat) : (fresh p sizeLimit retryDelay).AtRest where
  isOpen := ⟨rfl, rfl⟩
  steady := steady_empty
  idle := rfl
  accounted := by
    have reached : Cache.history ⟨p.backend, sizeLimit, retryDelay⟩ { store := {} } [] =
      some (fresh p sizeLimit retryDelay).cache := rfl
    exact Cache.history_accounted (fun _ none => (nomatch none)) reached

theorem deployNext_atRest (rest : s.AtRest) (d : Deployment) : ∃ tasks s', s.deployNext d = (.ok (some tasks), s') ∧
      tasks.map (·.key) = orderedKeys d.layer.preAggregated ∧ Caches d.layer (some tasks) s' ∧
      s'.AtRest ∧ (s.adopt d).Continues s' ∧ ∀ t ∈ tasks, (s.adopt d).Renewed s' t := by
  have rest' : (s.adopt d).AtRest := ⟨rest.isOpen, rest.steady, rest.idle, rest.accounted⟩
  obtain ⟨tasks, s', refresh, after⟩ := refresh_atRest rest'
  refine ⟨tasks, s', ?_, after⟩
  rw [deployNext_eq, refresh]
  rfl

/-- Some deployments have come to their end. -/
structure Sequenced (settings : CacheSettings) (ds : List Deployment) (s : Simulation) : Prop where
  rest : s.AtRest
  same : s.settings = settings
  tables : ∀ key table, s.cache.lookup key = some table → MadeBy settings ds s.cache.store key table

/-- What a deployment leaves, said by what its layer and the source make of each object. -/
theorem Sequenced.renewed {t : Task} (before : Sequenced settings ds s) (renewed : (s.adopt d).Renewed s' t) :
    (t.status = .done → s'.cache.lookup t.key = some (Task.tableName t.key t.id) ∧
      ∃ alone, d.outcome settings t.key t.id = .ok alone ∧
        s'.cache.store.table? (Task.tableName t.key t.id) = alone.table? (Task.tableName t.key t.id)) ∧
    (t.status = .failed → s'.cache.lookup t.key = s.cache.lookup t.key ∧
      (∃ e, d.outcome settings t.key t.id = .error e ∧ t.error = some (Task.failure t.key e)) ∧
      ∀ former, s.cache.lookup t.key = some former → s'.cache.store.table? former = s.cache.store.table? former) := by
  rw [← before.same]
  exact ⟨renewed.done, renewed.failed⟩

theorem Sequenced.next {tasks : List Task} (before : Sequenced settings ds s) (rest : s'.AtRest)
    (continues : (s.adopt d).Continues s') (caches : Caches d.layer (some tasks) s')
    (renewed : ∀ t ∈ tasks, (s.adopt d).Renewed s' t) : Sequenced settings (ds ++ [d]) s' := by
  refine ⟨rest, continues.settings_eq.trans before.same, fun key table found => ?_⟩
  by_cases wanted : key ∈ d.layer.preAggregated
  · obtain ⟨_, named, ended⟩ := caches.returned tasks rfl
    obtain ⟨t, here, rfl⟩ := mem_map.mp (named.mem_iff.mpr wanted)
    obtain ⟨done, failed⟩ := before.renewed (renewed t here)
    have final := (ended t here).2
    cases status : t.status with
    | done =>
      obtain ⟨mapped, alone, made, held⟩ := done status
      cases mapped.symm.trans found
      exact ⟨ds, d, [], t.id, alone, rfl, wanted, rfl, made, held, fun _ none => nomatch none⟩
    | failed =>
      obtain ⟨mapped, ⟨e, made, _⟩, held⟩ := failed status
      obtain ⟨earlier, maker, later, id, alone, rfl, listed, named, outcome, stored, failed⟩ :=
        before.tables t.key table (mapped.symm.trans found)
      refine ⟨earlier, maker, later ++ [d], id, alone, by simp, listed, named, outcome,
        (held table (mapped.symm.trans found)).trans stored, fun d' here => ?_⟩
      rcases mem_append.mp here with old | last
      · exact failed d' old
      · cases mem_singleton.mp last
        exact ⟨wanted, _, e, made⟩
    | queued | running =>
      rw [status] at final
      cases final
  · rw [caches.tables key wanted] at found
    cases found

theorem deployAll_sequenced {earlier : List Deployment} (before : Sequenced settings earlier s) (ds : List Deployment) :
    Sequenced settings (earlier ++ ds) (s.deployAll ds) := by
  induction ds generalizing s earlier with
  | nil =>
    rw [append_nil]
    exact before
  | cons d ds ih =>
    obtain ⟨tasks, s', deployed, _, caches, rest, continues, renewed⟩ := deployNext_atRest before.rest d
    have after := ih (before.next rest continues caches renewed)
    rw [append_cons]
    unfold deployAll
    rw [foldl_cons, deployed]
    exact after

end Sequences

/-- How things stand after a deployment that follows others. -/
structure Deployed (settings : CacheSettings) (ds : List Deployment) (d : Deployment) (s : Simulation)
    (tasks : List Task) (s' : Simulation) : Prop where
  layer : s'.processor.layer = d.layer
  /-- Each wanted object has a task, and it is over. -/
  keys : tasks.map (·.key) = orderedKeys d.layer.preAggregated
  latest : ∀ t ∈ tasks, s'.task? t.key = some t ∧ t.status.isFinal = true
  /-- A task that is done has made the table of its object, from what the source gives now. -/
  done : ∀ t ∈ tasks, t.status = .done → s'.cache.lookup t.key = some (Task.tableName t.key t.id) ∧
    ∃ alone, d.outcome settings t.key t.id = .ok alone ∧
      s'.cache.store.table? (Task.tableName t.key t.id) = alone.table? (Task.tableName t.key t.id)
  /-- A task that has failed leaves its object the table it had. -/
  failed : ∀ t ∈ tasks, t.status = .failed → s'.cache.lookup t.key = s.cache.lookup t.key ∧
    ∃ e, d.outcome settings t.key t.id = .error e ∧ t.error = some (Task.failure t.key e)
  others : ∀ key, key ∉ d.layer.preAggregated → s'.task? key = none ∧ s'.cache.lookup key = none
  tables : ∀ key table, s'.cache.lookup key = some table → MadeBy settings (ds ++ [d]) s'.cache.store key table

theorem Sequenced.deployed {s : Simulation} (before : Sequenced settings ds s) (d : Deployment) :
    ∃ tasks s', s.deployNext d = (.ok (some tasks), s') ∧ Deployed settings ds d s tasks s' := by
  obtain ⟨tasks, s', deployed, keyed, caches, rest, continues, renewed⟩ := deployNext_atRest before.rest d
  refine ⟨tasks, s', deployed, caches.layer, keyed, (caches.returned tasks rfl).2.2,
    fun t here => (before.renewed (renewed t here)).1, fun t here failed => ?_, fun key unwanted => ⟨?_, ?_⟩,
    (before.next rest continues caches renewed).tables⟩
  · obtain ⟨mapped, error, _⟩ := (before.renewed (renewed t here)).2 failed
    exact ⟨mapped, error⟩
  · rw [← Option.not_isSome_iff_eq_none, caches.tasks]
    exact unwanted
  · exact caches.tables key unwanted

theorem deployNext_deployed (p : Processor) (sizeLimit retryDelay : Nat) (ds : List Deployment)
    (d : Deployment) : ∃ tasks s', ((fresh p sizeLimit retryDelay).deployAll ds).deployNext d = (.ok (some tasks), s') ∧
      Deployed ⟨p.backend, sizeLimit, retryDelay⟩ ds d ((fresh p sizeLimit retryDelay).deployAll ds) tasks s' := by
  have begins : Sequenced ⟨p.backend, sizeLimit, retryDelay⟩ [] (fresh p sizeLimit retryDelay) :=
    ⟨fresh_atRest p sizeLimit retryDelay, rfl, fun _ _ found => nomatch found⟩
  exact (deployAll_sequenced begins ds).deployed d

def keptOrders (sql : String) : Manifest where
  catalog := "mdl"
  schema := "test"
  models := [{ name := "Orders", refSql := some sql, preAggregated := true }]

def answeredOrders : Deployment where
  layer := ⟨keptOrders "select 1 as n", rfl⟩
  rules := [{ contains := "", answer := .ok { columns := [⟨"n", "integer"⟩], rows := [[.int 1]] } }]

/-- The orders are read in another way, and the data source does not answer. -/
def unansweredOrders : Deployment where
  layer := ⟨keptOrders "select 2 as n", rfl⟩
  rules := []

theorem stale_table_of_failed_orders : ∃ tasks s' t table,
    ((fresh ⟨answeredOrders.layer, none, .sqlite⟩ 100 0).deployAll [answeredOrders]).deployNext unansweredOrders =
      (.ok (some tasks), s') ∧
    t ∈ tasks ∧ t.status = .failed ∧ s'.cache.lookup t.key = some table ∧
    MadeBy ⟨.sqlite, 100, 0⟩ [answeredOrders, unansweredOrders] s'.cache.store t.key table ∧
    ∃ e, unansweredOrders.outcome ⟨.sqlite, 100, 0⟩ t.key t.id = .error e := by
  obtain ⟨tasks, s', deployed, facts⟩ :=
    deployNext_deployed ⟨answeredOrders.layer, none, .sqlite⟩ 100 0 [answeredOrders] unansweredOrders
  let next := ((fresh ⟨answeredOrders.layer, none, .sqlite⟩ 100 0).deployAll
    [answeredOrders]).deployNext unansweredOrders
  have run : (next.1.toOption.join.getD []).map (fun t => (t.status, next.2.cache.lookup t.key)) =
      [(.failed, some "Orders_00000000000000000000000000000001")] := by
    decide +kernel
  rw [show next = (.ok (some tasks), s') from deployed] at run
  obtain ⟨t, rest, rfl, same, _⟩ := map_eq_cons_iff.mp run
  obtain ⟨failed, mapped⟩ := Prod.mk.inj same
  obtain ⟨_, e, error, _⟩ := facts.failed t mem_cons_self failed
  exact ⟨_, s', t, _, deployed, mem_cons_self, failed, mapped, facts.tables t.key _ mapped, e, error⟩

end Simulation

end SemanticLayer
