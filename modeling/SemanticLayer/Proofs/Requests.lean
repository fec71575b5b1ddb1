import SemanticLayer.Proofs.Agreement
import SemanticLayer.Proofs.Ownership

/-! # Requests that follow each other

Clients ask for tasks, removals and refreshes of the whole cache, timers go off, and all timers may be given up.
If each of these is over before the next one begins, then the maps agree about every object whenever nothing
goes on, and the store holds the tables of the objects and no others.
-/

namespace SemanticLayer

open List

/-- Something that is asked of the cache, or that time brings. -/
inductive Request where
  | create (layer : Layer) (key : TableName)
  | remove (key : TableName)
  /-- Caches what the layer wants cached, and forgets all else. -/
  | refresh (layer : Layer)
  | goOff (place : Nat)
  | stop

namespace Cache

variable {settings : CacheSettings} {c c' : Cache} {journal : Journal} {s s' : Cache × Journal}
  {actions : List Action} {key : TableName}

/-- What some actions make of a cache and of the journal of its runs. -/
def record (settings : CacheSettings) (s : Cache × Journal) (actions : List Action) : Option (Cache × Journal) :=
  actions.foldlM (fun s action => (s.1.act settings action).map fun c => (c, s.1.noted c s.2)) s

/-- The actions of a request, in rounds: nothing is left to do for one round when the next one begins. A task
that the layer does not allow is refused. -/
def rounds (c : Cache) : Request → List (List Action)
  | .create layer key => if layer.isCacheable key then [[.create layer key]] else []
  | .remove key => [[.remove key]]
  | .refresh layer =>
    let wanted := Simulation.orderedKeys layer.preAggregated
    let known := Simulation.orderedKeys (c.tasks.keys ++ c.tables.keys)
    (known.filter fun key => !wanted.contains key).map (fun key => [.remove key]) ++
      [wanted.map (.create layer)]
  | .goOff place => [[.goOff place]]
  | .stop => [[.stop]]

/-- The actions of a round happen, and all processes go on until nothing is left to do. -/
def Completes (settings : CacheSettings) (round : List Action) (s s' : Cache × Journal) : Prop :=
  ∃ actions, actions.filter (!·.isOngoing) = round ∧ record settings s actions = some s' ∧ s'.1.processes = []

inductive CompletesAll (settings : CacheSettings) : List (List Action) → Cache × Journal → Cache × Journal → Prop
  | nil (s : Cache × Journal) : CompletesAll settings [] s s
  | cons {round : List Action} {rest : List (List Action)} {s s' s'' : Cache × Journal} :
      Completes settings round s s' → CompletesAll settings rest s' s'' →
      CompletesAll settings (round :: rest) s s''

/-- Requests are made one after the other, each when the one before is over. -/
inductive Serves (settings : CacheSettings) : List Request → Cache × Journal → Cache × Journal → Prop
  | nil (s : Cache × Journal) : Serves settings [] s s
  | cons {request : Request} {requests : List Request} {s s' s'' : Cache × Journal} :
      CompletesAll settings (s.1.rounds request) s s' → Serves settings requests s' s'' →
      Serves settings (request :: requests) s s''

theorem record_cons {action : Action} (recorded : record settings s (action :: actions) = some s') :
    ∃ c, Acts s.1 action c ∧ s.1.act settings action = some c ∧
      record settings (c, s.1.noted c s.2) actions = some s' := by
  unfold record at recorded ⊢
  rw [foldlM_cons] at recorded
  obtain ⟨next, first, rest⟩ := Option.bind_eq_some_iff.mp recorded
  obtain ⟨c, acted, rfl⟩ := Option.map_eq_some_iff.mp first
  exact ⟨c, acts_of_act acted, acted, rest⟩

theorem Moves.key_mem {pid : Nat} {p : Process} (member : (pid, p) ∈ c.processes) (moves : Moves c pid p c')
    {other : Nat} {q : Process} (member' : (other, q) ∈ c'.processes) :
    ∃ old p', (old, p') ∈ c.processes ∧ q.key = p'.key := by
  cases moves with
  | goes alters turn =>
    rcases mem_setProcess.mp member' with ⟨_, old⟩ | ⟨_, rfl, _⟩
    · exact ⟨other, q, alters.processes ▸ old, rfl⟩
    · exact ⟨pid, p, member, turn.key_eq⟩
  | ends alters _ => exact ⟨other, q, alters.processes ▸ (mem_endProcess.mp member').2, rfl⟩
  | begins firing _ _ =>
    rcases mem_append.mp member' with old | last
    · exact ⟨other, q, (mem_endProcess.mp old).2, rfl⟩
    · cases mem_singleton.mp last
      exact ⟨pid, p, member, by rw [firing]; rfl⟩

theorem IsQuiet.ongoing (quiet : c.IsQuiet key) {action : Action} (ongoing : action.isOngoing = true)
    (acts : Acts c action c') : c'.IsQuiet key := by
  cases acts with
  | create | remove | goOff | stop => cases ongoing
  | moves _ member moves =>
    intro other q member'
    obtain ⟨old, p', here, same⟩ := moves.key_mem member member'
    rw [same]
    exact quiet old p' here
  | idle => exact quiet

theorem IsQuiet.addTask (quiet : c.IsQuiet key) {other : TableName} (apart : other ≠ key) (layer : Layer) :
    (c.addTask layer other).2.IsQuiet key := by
  intro pid p member
  rcases mem_append.mp member with old | last
  · exact quiet pid p old
  · cases mem_singleton.mp last
    exact apart

/-- The actions of a round are about different objects that nothing goes on about. -/
inductive Ready (c : Cache) (round : List Action) : Prop
  | none : round = [] → Ready c round
  | single {action : Action} : round = [action] → c.processes = [] → Ready c round
  | creates {layer : Layer} {keys : List TableName} : round = keys.map (.create layer) → keys.Nodup →
      (∀ key ∈ keys, c.IsQuiet key) → Ready c round

section Rounds

variable {action : Action} {round : List Action}

theorem Ready.calm (ready : Ready c (action :: round)) : c.Calm action := by
  cases ready with
  | none nothing => cases nothing
  | single _ rest => exact calm_of_rest rest action
  | @creates layer keys all _ quiet =>
    cases keys with
    | nil => cases all
    | cons key keys =>
      obtain ⟨rfl, _⟩ := cons.inj all
      exact quiet key mem_cons_self

theorem Ready.ongoing (ready : Ready c round) (ongoing : action.isOngoing = true) (acts : Acts c action c') :
    Ready c' round := by
  cases ready with
  | none nothing => exact .none nothing
  | single one rest =>
    refine .single one ?_
    cases acts with
    | create | remove | goOff | stop => cases ongoing
    | moves _ member _ =>
      rw [rest] at member
      cases member
    | idle => exact rest
  | creates all distinct quiet =>
    exact .creates all distinct fun key here => (quiet key here).ongoing ongoing acts

theorem Ready.next (ready : Ready c (action :: round)) (acts : Acts c action c') : Ready c' round := by
  cases ready with
  | none nothing => cases nothing
  | single one _ => exact .none (cons.inj one).2
  | @creates layer keys all distinct quiet =>
    cases keys with
    | nil => cases all
    | cons key keys =>
      obtain ⟨rfl, others⟩ := cons.inj all
      obtain ⟨fresh, distinct⟩ := nodup_cons.mp distinct
      refine .creates others distinct fun other here => ?_
      cases acts with
      | create _ =>
        have apart : key ≠ other := fun same => fresh (same ▸ here)
        exact (quiet other (mem_cons_of_mem _ here)).addTask apart layer
      | moves ongoing | idle ongoing => cases ongoing

/-- The cache is in order after each action of a round, and while processes go on. -/
theorem Orderly.record (recorded : record settings s actions = some s') (inv : Orderly s.1 s.2)
    (ready : Ready s.1 (actions.filter (!·.isOngoing))) : Orderly s'.1 s'.2 := by
  induction actions generalizing s with
  | nil =>
    cases recorded
    exact inv
  | cons action actions ih =>
    obtain ⟨c, acts, _, rest⟩ := record_cons recorded
    cases ongoing : action.isOngoing with
    | true =>
      have calm : s.1.Calm action := by
        cases action with
        | create | remove | goOff | stop => cases ongoing
        | proceed | answer | setClock => trivial
      rw [filter_cons_of_neg (by simp [ongoing])] at ready
      exact ih rest (inv.acts calm acts) (ready.ongoing ongoing acts)
    | false =>
      rw [filter_cons_of_pos (by simp [ongoing])] at ready
      exact ih rest (inv.acts ready.calm acts) (ready.next acts)

end Rounds

/-- Every round of a request to a cache at rest can begin. -/
theorem ready_of_mem_rounds {request : Request} {round : List Action} (member : round ∈ c.rounds request)
    (rest : c'.processes = []) : Ready c' round := by
  cases request with
  | create layer key =>
    dsimp only [rounds] at member
    split at member
    · exact .single (mem_singleton.mp member) rest
    · cases member
  | remove | goOff | stop => exact .single (mem_singleton.mp member) rest
  | refresh layer =>
    rcases mem_append.mp member with removal | creation
    · obtain ⟨key, _, rfl⟩ := mem_map.mp removal
      exact .single rfl rest
    · refine .creates (mem_singleton.mp creation) ?_ fun key _ => isQuiet_of_rest rest key
      exact (orderedKeys_perm layer.preAggregated_nodup).nodup_iff.mpr layer.preAggregated_nodup

theorem history_of_record (recorded : record settings s actions = some s') :
    s.1.history settings actions = some s'.1 := by
  induction actions generalizing s with
  | nil =>
    cases recorded
    rfl
  | cons action actions ih =>
    obtain ⟨c, _, acted, rest⟩ := record_cons recorded
    change (s.1.act settings action >>= fun c => c.history settings actions) = some s'.1
    rw [acted]
    exact ih rest

/-- A cache at rest whose maps agree, reached by some history. -/
structure Rests (settings : CacheSettings) (start : Cache) (s : Cache × Journal) : Prop where
  rest : s.1.processes = []
  orderly : Orderly s.1 s.2
  reached : ∃ actions, start.history settings actions = some s.1

variable {start : Cache}

theorem Rests.completes (rests : Rests settings start s) {round : List Action} (ready : Ready s.1 round)
    (completes : Completes settings round s s') : Rests settings start s' := by
  obtain ⟨actions, rfl, recorded, rest⟩ := completes
  obtain ⟨before, reached⟩ := rests.reached
  refine ⟨rest, rests.orderly.record recorded ready, before ++ actions, ?_⟩
  rw [history_append, reached]
  exact history_of_record recorded

theorem Rests.completesAll {rounds : List (List Action)} (completes : CompletesAll settings rounds s s')
    (ready : ∀ round ∈ rounds, ∀ c : Cache, c.processes = [] → Ready c round) (rests : Rests settings start s) :
    Rests settings start s' := by
  induction completes with
  | nil => exact rests
  | @cons round rounds _ _ _ first _ ih =>
    refine ih (fun round here => ready round (mem_cons_of_mem _ here)) ?_
    exact rests.completes (ready round mem_cons_self _ rests.rest) first

theorem Rests.serves {requests : List Request} (serves : Serves settings requests s s')
    (rests : Rests settings start s) : Rests settings start s' := by
  induction serves with
  | nil => exact rests
  | cons first _ ih =>
    exact ih (rests.completesAll first fun round here c rest => ready_of_mem_rounds here rest)

theorem rests_empty (settings : CacheSettings) : Rests settings {} ({}, []) := by
  have none : ∀ pid p, (pid, p) ∉ ({} : Cache).processes := fun _ _ => not_mem_nil
  refine ⟨rfl, ⟨⟨.nil, ?_⟩, ?_, ?_, ?_⟩, [], rfl⟩
  · exact fun pid p member => (none pid p member).elim
  · exact fun pid p _ _ member => (none pid p member).elim
  · exact fun pid p member => (none pid p member).elim
  · exact fun key _ => .gone rfl rfl rfl rfl

theorem Rests.tables_perm (rests : Rests settings {} s) :
    (s.1.store.tables.map (·.name)).Perm (s.1.tables.map (·.2)) := by
  obtain ⟨actions, reached⟩ := rests.reached
  have others : ∀ t ∈ ({} : Store).tables, ∀ key id, sameName t.name (Task.tableName key id) = false :=
    fun t member => (not_mem_nil member).elim
  have inv : Accounted {} s.1 := history_accounted others reached
  obtain ⟨made, split, names⟩ := inv.balanced.stored
  have nothing : s.1.held = [] := by
    rw [held, rests.rest]
    rfl
  rw [nothing, append_nil] at names
  rw [split]
  exact names

/-- Requests are made one after the other of a cache that is empty at first, each when the one before is over:
then, for every object, without a task there is neither a table nor a timer; once it has been copied, queries
are answered from the table of its task, and there is no retry; when that has failed, it is said why, and there
is no refresh; there is a refresh only after a copy, and only if the layer of the last run wants one; and there
is a retry only after a failure. The tables in the store are those of the objects. -/
theorem maps_agree_of_serves {requests : List Request} (serves : Serves settings requests ({}, []) (c, journal)) :
    (∀ key, (c.tasks.get? key = none → c.lookup key = none ∧ c.refreshes.get? key = none ∧ c.retries.get? key = none) ∧
      (∀ t, c.tasks.get? key = some t → t.status = .done →
        t.table ≠ none ∧ c.lookup key = t.table ∧ c.retries.get? key = none) ∧
      (∀ t, c.tasks.get? key = some t → t.status = .failed → t.error ≠ none ∧ c.refreshes.get? key = none) ∧
      (c.refreshes.get? key ≠ none → (∃ t, c.tasks.get? key = some t ∧ t.status = .done) ∧
        ∃ layer, journal.get? key = some layer ∧ layer.Refreshes key) ∧
      (c.retries.get? key ≠ none → ∃ t, c.tasks.get? key = some t ∧ t.status = .failed)) ∧
    (c.store.tables.map (·.name)).Perm (c.tables.map (·.2)) := by
  have rests : Rests settings {} (c, journal) := (rests_empty settings).serves serves
  refine ⟨fun key => ?_, rests.tables_perm⟩
  exact (rests.orderly.settled key (isQuiet_of_rest rests.rest key)).agrees

theorem record_append (s : Cache × Journal) (actions actions' : List Action) :
    record settings s (actions ++ actions') = (record settings s actions).bind fun s => record settings s actions' :=
  foldlM_append

def refreshedOrders : Layer where
  manifest := {
    catalog := "mdl"
    schema := "test"
    models := [{
      name := "Orders"
      refSql := some "select 1 as n"
      preAggregated := true
      refreshTime := some ⟨1000, by decide⟩ }] }
  checked := rfl

/-- The orders are copied and, after a while, copied again; the second time the data source does not answer, and
after another while the retry succeeds. -/
theorem orders_retried_agree :
    ∃ c journal t, Serves ⟨.sqlite, 100, 7⟩ [.refresh refreshedOrders, .goOff 0, .goOff 0] ({}, []) (c, journal) ∧
      c.tasks.get? ⟨"mdl", "test", "Orders"⟩ = some t ∧ t.status = .done ∧
      c.refreshes.get? ⟨"mdl", "test", "Orders"⟩ ≠ none ∧ c.retries.get? ⟨"mdl", "test", "Orders"⟩ = none ∧
      c.lookup ⟨"mdl", "test", "Orders"⟩ = t.table ∧
      (∃ layer, journal.get? ⟨"mdl", "test", "Orders"⟩ = some layer ∧
        layer.Refreshes ⟨"mdl", "test", "Orders"⟩) ∧
      (c.store.tables.map (·.name)).Perm (c.tables.map (·.2)) := by
  let settings : CacheSettings := ⟨.sqlite, 100, 7⟩
  let orders : TableName := ⟨"mdl", "test", "Orders"⟩
  let proceed (times pid : Nat) : List Action := replicate times (.proceed pid)
  let rows : Except SourceError Records := .ok ⟨[⟨"n", "integer"⟩], [[.int 1]]⟩
  let copy (pid : Nat) : List Action := proceed 5 pid ++ [.answer pid rows] ++ proceed 11 pid
  let failure : List Action := proceed 5 8 ++ [.answer 8 (.error (.query "down"))] ++ proceed 10 8
  let first : List Action := [.create refreshedOrders orders] ++ copy 2
  let second : List Action := [.goOff 0] ++ proceed 4 6 ++ failure
  let third : List Action := [.goOff 0] ++ proceed 2 11 ++ copy 13
  have copied : (record settings ({}, []) first).map (fun s => s.1.processes.isEmpty) = some true := by
    decide +kernel
  have failed : (record settings ({}, []) (first ++ second)).map (fun s => s.1.processes.isEmpty) = some true := by
    decide +kernel
  have retried : (record settings ({}, []) (first ++ second ++ third)).map (fun s =>
      (s.1.processes.isEmpty, (s.1.tasks.get? orders).map (·.status), (s.1.refreshes.get? orders).isSome)) =
      some (true, some .done, true) := by
    decide +kernel
  obtain ⟨s₁, reached₁, rest₁⟩ := Option.map_eq_some_iff.mp copied
  obtain ⟨s₂, reached₂, rest₂⟩ := Option.map_eq_some_iff.mp failed
  obtain ⟨⟨c, journal⟩, reached₃, seen⟩ := Option.map_eq_some_iff.mp retried
  rw [record_append, reached₂] at reached₃
  rw [record_append, reached₁] at reached₂
  simp only [Prod.mk.injEq, Option.map_eq_some_iff, List.isEmpty_iff] at rest₁ rest₂ seen
  obtain ⟨rest₃, ⟨t, task, done⟩, refresh⟩ := seen
  have serves : Serves settings [.refresh refreshedOrders, .goOff 0, .goOff 0] ({}, []) (c, journal) :=
    .cons (.cons ⟨first, rfl, reached₁, rest₁⟩ (.nil s₁)) <|
      .cons (.cons ⟨second, rfl, reached₂, rest₂⟩ (.nil s₂)) <|
        .cons (.cons ⟨third, rfl, reached₃, rest₃⟩ (.nil _)) (.nil _)
  obtain ⟨agree, stored⟩ := maps_agree_of_serves serves
  obtain ⟨_, copied, _, refreshed, _⟩ := agree orders
  have present : c.refreshes.get? orders ≠ none := Option.isSome_iff_ne_none.mp refresh
  obtain ⟨_, mapped, retry⟩ := copied t task done
  exact ⟨c, journal, t, serves, task, done, present, retry, mapped, (refreshed present).2, stored⟩

end Cache

end SemanticLayer
