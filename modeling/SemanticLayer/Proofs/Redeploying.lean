import SemanticLayer.Proofs.Progress
import SemanticLayer.Proofs.Requests

/-! # Deploying at any time

Between two requests nothing goes on but runs, and runs neither create nor remove tasks. So whatever clients have asked
for before, and whoever still waits for the data source, a deployment leaves exactly the tasks that the new layer
wants, and comes to its end unless some run is kept waiting at the gate.
-/

namespace SemanticLayer

open List

variable {c : Cache} {a a' : Affairs} {next : Option Process} {r : Removal}

/-- Whether the process leaves it at the tasks there are: a run, or a removal that has only to drop a table. -/
def Process.keepsTasks : Process → Bool
  | .run _ | .removal { phase := .dropping _, .. } => true
  | .firing _ | .removal _ => false

theorem Affairs.setTimer_rest (a : Affairs) (timer : Option Nat) (kind : TimerKind) :
    (a.setTimer timer kind).task = a.task ∧ (a.setTimer timer kind).mapped = a.mapped := by
  cases kind <;> exact ⟨rfl, rfl⟩

theorem Process.Turn.keepsTasks {pid : Nat} {p : Process}
    (turn : p.Turn c pid a next a') (keeps : p.keepsTasks = true) :
    a'.task.isSome = a.task.isSome ∧ (a.task = none ∧ a.mapped = none → a'.task = none ∧ a'.mapped = none) ∧
      ∀ q, next = some q → q.keepsTasks = true := by
  cases turn with
  | run turn =>
    cases turn with
    | start _ old _ | finish _ old _ | fail _ old _ =>
      rw [old]
      exact ⟨rfl, fun gone => (nomatch gone.1), fun _ same => Option.some.inj same ▸ rfl⟩
    | install _ latest =>
      obtain ⟨t, old, _⟩ := latest
      rw [old]
      exact ⟨rfl, fun gone => (nomatch gone.1), fun _ same => Option.some.inj same ▸ rfl⟩
    | @keep kind timer _ =>
      obtain ⟨task, mapped⟩ := a.setTimer_rest (some timer) kind
      rw [task, mapped]
      exact ⟨rfl, id, fun _ same => Option.some.inj same ▸ rfl⟩
    | @undo kind _ =>
      obtain ⟨task, mapped⟩ := a.setTimer_rest none kind
      rw [task, mapped]
      exact ⟨rfl, id, fun _ same => Option.some.inj same ▸ rfl⟩
    | forget _ forgets =>
      obtain ⟨task, mapped, _⟩ := forgets.same
      rw [task, mapped]
      exact ⟨rfl, id, fun _ ended => (nomatch ended)⟩
    | stay _ _ => exact ⟨rfl, id, fun _ ended => (nomatch ended)⟩
    | _ => exact ⟨rfl, id, fun _ same => Option.some.inj same ▸ rfl⟩
  | firing _ => cases keeps
  | @removal r _ _ turn =>
    obtain ⟨key, phase⟩ := r
    cases phase with
    | dropping table =>
      cases turn with
      | drop _ => exact ⟨rfl, id, fun _ ended => (nomatch ended)⟩
      | endRefresh here | endRetry here | eraseTask here | seen here _ | gone here _ | forget here _
      | unmap here _ | unmapped here _ => cases here
    | _ => cases keeps

/-- A removal that goes on alone takes one thing after the other from its object. -/
theorem Removal.Turn.erases (turn : r.Turn c a next a')
    (erased : r.phase.work ≤ 4 → a.task = none) (unmapped : r.phase.work ≤ 1 → a.mapped = none) :
    (∃ phase, next = some (.removal { r with phase }) ∧ phase.work < r.phase.work ∧
      (phase.work ≤ 4 → a'.task = none) ∧ (phase.work ≤ 1 → a'.mapped = none)) ∨
    next = none ∧ a'.task = none ∧ a'.mapped = none := by
  cases turn with
  | endRefresh here | endRetry here =>
    refine .inl ⟨_, rfl, ?_, fun late => absurd late (by decide), fun late => absurd late (by decide)⟩
    rw [here]
    decide
  | eraseTask here =>
    refine .inl ⟨_, rfl, ?_, fun _ => rfl, fun late => absurd late (by decide)⟩
    rw [here]
    decide
  | seen here present => exact absurd (erased (by rw [here]; decide)) present
  | gone here absent =>
    refine .inl ⟨_, rfl, ?_, fun _ => absent, fun late => absurd late (by decide)⟩
    rw [here]
    decide
  | forget here forgets =>
    rw [here] at erased
    refine .inl ⟨_, rfl, ?_, fun _ => forgets.same.1.trans (erased (by decide)), fun late => absurd late (by decide)⟩
    rw [here]
    decide
  | unmap here _ =>
    rw [here] at erased
    refine .inl ⟨_, rfl, ?_, fun _ => erased (by decide), fun _ => rfl⟩
    rw [here]
    simp [RemovalPhase.work]
  | unmapped here absent =>
    rw [here] at erased
    exact .inr ⟨rfl, erased (by decide), absent⟩
  | drop here =>
    rw [here] at erased unmapped
    exact .inr ⟨rfl, erased (by simp [RemovalPhase.work]), unmapped (by simp [RemovalPhase.work])⟩

/-- Nothing goes on but runs, and the cache has come about by some history. -/
structure Cache.Steady (c : Cache) : Prop where
  wellRun : c.WellRun
  runs : ∀ pid p, (pid, p) ∈ c.processes → ∃ r, p = .run r

theorem Cache.Steady.addTask (steady : c.Steady) (layer : Layer) (key : TableName) :
    (c.addTask layer key).2.Steady := by
  have inv := steady.wellRun
  refine ⟨⟨inv.counted.addTask _ _, inv.one.addTask _ _, inv.pursued.addTask _ _⟩, fun pid p member => ?_⟩
  rcases mem_append.mp member with old | new
  · exact steady.runs pid p old
  · cases mem_singleton.mp new
    exact ⟨_, rfl⟩

theorem Cache.Steady.answer (steady : c.Steady) (pid : Nat) (reply : Except SourceError Records) :
    (c.answer pid reply).Steady := by
  have answered : c.act ⟨.sqlite, 0, 0⟩ (.answer pid reply) = some (c.answer pid reply) := rfl
  refine ⟨steady.wellRun.acts (acts_of_act answered), fun other p member => ?_⟩
  unfold Cache.answer at member
  split at member
  · split at member
    · rcases mem_setProcess.mp member with ⟨_, old⟩ | ⟨_, rfl, _⟩
      · exact steady.runs other p old
      · exact ⟨_, rfl⟩
    · exact steady.runs other p member
  · exact steady.runs other p member

namespace Simulation

variable {keys : List TableName}

def fresh (p : Processor) (sizeLimit retryDelay : Nat) : Simulation :=
  { processor := p, source := { rules := [] }, sizeLimit, retryDelay }

variable {s s' s'' : Simulation} {pid n : Nat} {key : TableName}

/-- An object has neither a task nor a table. -/
def IsAbsent (s : Simulation) (key : TableName) : Prop := s.task? key = none ∧ s.cache.lookup key = none

/-- Some objects are gone. No other task appears or goes away, and no table appears where there is no task. -/
structure Removes (keys : List TableName) (s s' : Simulation) : Prop where
  processor : s'.processor = s.processor
  gone : ∀ key ∈ keys, s'.IsAbsent key
  tasks : ∀ key, key ∉ keys → (s'.task? key).isSome = (s.task? key).isSome
  absent : ∀ key, s.IsAbsent key → s'.IsAbsent key

theorem Removes.refl (s : Simulation) : s.Removes [] s := ⟨rfl, fun _ here => (nomatch here), fun _ _ => rfl, fun _ => id⟩

theorem Removes.trans {keys' : List TableName} (first : s.Removes keys s') (second : s'.Removes keys' s'') :
    s.Removes (keys ++ keys') s'' where
  processor := second.processor.trans first.processor
  gone key here := (mem_append.mp here).elim (fun early => second.absent key (first.gone key early)) (second.gone key)
  tasks key other := by
    rw [mem_append, not_or] at other
    exact (second.tasks key other.2).trans (first.tasks key other.1)
  absent key gone := second.absent key (first.absent key gone)

theorem stepProcess_processor (stepped : s.stepProcess pid = some s') : s'.processor = s.processor := by
  unfold stepProcess at stepped
  split at stepped
  · split at stepped
    · cases stepped
    · cases stepped
      unfold arrive
      dsimp only
      split <;> rfl
  · obtain ⟨c, _, rfl⟩ := Option.map_eq_some_iff.mp stepped
    rfl

/-- All processes leave it at the tasks there are. -/
def KeepsTasks (s : Simulation) : Prop := ∀ pid p, (pid, p) ∈ s.cache.processes → p.keepsTasks = true

theorem KeepsTasks.step (keeps : s.KeepsTasks) (counted : s.cache.Counted) (stepped : s.stepProcess pid = some s') :
    s.Removes [] s' ∧ s'.KeepsTasks := by
  have processor := stepProcess_processor stepped
  cases stepProcess_goes counted stepped with
  | waits _ _ _ same _ =>
    refine ⟨⟨processor, fun _ here => (nomatch here), fun key _ => ?_, fun key gone => ?_⟩, ?_⟩
    · rw [task?, task?, same]
    · rw [IsAbsent, task?, same]
      exact gone
    · rw [KeepsTasks, same]
      exact keeps
  | @moves p member _ moves _ =>
    rcases moves.turns member with ⟨f, rfl, _, _⟩ | ⟨next, turn, others, processes⟩
    · cases keeps pid _ member
    · obtain ⟨tasks, absent, goes⟩ := turn.keepsTasks (keeps pid p member)
      refine ⟨⟨processor, fun _ here => (nomatch here), fun key _ => ?_, fun key gone => ?_⟩, fun other q here => ?_⟩
      · change (s'.cache.affairs key).task.isSome = (s.cache.affairs key).task.isSome
        by_cases same : key = p.key
        · rw [same]
          exact tasks
        · rw [others key same]
      · change (s'.cache.affairs key).task = none ∧ (s'.cache.affairs key).mapped = none
        by_cases same : key = p.key
        · rw [same] at gone ⊢
          exact absent gone
        · rw [others key same]
          exact gone
      · rcases (processes other q).mp here with ⟨_, old⟩ | ⟨_, same⟩
        · exact keeps other q old
        · exact goes q same

/-- As long as nothing goes on but runs, no task appears or goes away. -/
theorem KeepsTasks.settle (keeps : s.KeepsTasks) (counted : s.cache.Counted) : s.Removes [] s.settle := by
  have inv : s.Removes [] s.settle ∧ s.settle.KeepsTasks ∧ s.settle.cache.Counted := by
    refine steps_preserves (P := fun s' => s.Removes [] s' ∧ s'.KeepsTasks ∧ s'.cache.Counted) ?_
      ⟨.refl s, keeps, counted⟩ _
    rintro s₁ pid s₂ ⟨same, keeps, counted⟩ stepped
    obtain ⟨same', keeps'⟩ := keeps.step counted stepped
    exact ⟨same.trans same', keeps', (stepProcess_goes counted stepped).counted counted⟩
  exact inv.1

theorem keepsTasks_of_steady (steady : s.cache.Steady) : s.KeepsTasks := by
  intro pid p member
  obtain ⟨r, rfl⟩ := steady.runs pid p member
  rfl

theorem Reaches.wellRun (reaches : s.Reaches s') (inv : s.cache.WellRun) : s'.cache.WellRun := by
  obtain ⟨_, actions, reached⟩ := reaches
  exact inv.history reached

/-- Timers that have gone off and removals never wait, so only runs are left when all wait. -/
theorem settle_steady (inv : s.cache.WellRun) : s.settle.cache.Steady := by
  have inv' := (settle_reaches s).wellRun inv
  refine ⟨inv', fun pid p member => ?_⟩
  obtain ⟨r, rfl, _⟩ := (settle_isStuck inv.counted).waits inv'.counted member
  exact ⟨r, rfl⟩

section Removal

/-- A process has gone on about an object while all else stood still. -/
structure Beside (before : Simulation) (pid : Nat) (key : TableName) (s : Simulation) : Prop where
  counted : s.cache.Counted
  processor : s.processor = before.processor
  elsewhere : ∀ other, other ≠ key → s.cache.affairs other = before.cache.affairs other
  others : ∀ number p, number ≠ pid → (number, p) ∈ s.cache.processes → (number, p) ∈ before.cache.processes

/-- The object of a removal in some phase has lost what the phase takes for granted. -/
def HasLost (s : Simulation) (key : TableName) (phase : RemovalPhase) : Prop :=
  (phase.work ≤ 4 → s.task? key = none) ∧ (phase.work ≤ 1 → s.cache.lookup key = none)

variable {before : Simulation} {phase : RemovalPhase}

theorem Beside.step (beside : Beside before pid key s) (member : (pid, .removal ⟨key, phase⟩) ∈ s.cache.processes)
    (lost : s.HasLost key phase) (stepped : s.stepProcess pid = some s') : Beside before pid key s' ∧
      ((∃ next, (pid, .removal ⟨key, next⟩) ∈ s'.cache.processes ∧ next.work < phase.work ∧ s'.HasLost key next) ∨
        (∀ p, (pid, p) ∉ s'.cache.processes) ∧ s'.IsAbsent key) := by
  have goes := stepProcess_goes beside.counted stepped
  have counted := goes.counted beside.counted
  have processor := (stepProcess_processor stepped).trans beside.processor
  cases goes with
  | waits here asking _ _ _ =>
    cases beside.counted.process_eq member here
    cases asking
  | moves here _ moves _ =>
    cases beside.counted.process_eq member here
    rcases moves.turns member with ⟨f, firing, _, _⟩ | ⟨next, turn, others, processes⟩
    · cases firing
    · refine ⟨⟨counted, processor, fun other different => ?_, fun number q different here => ?_⟩, ?_⟩
      · rw [others other different]
        exact beside.elsewhere other different
      · rcases (processes number q).mp here with ⟨_, old⟩ | ⟨same, _⟩
        · exact beside.others number q different old
        · exact absurd same different
      · cases turn with
        | removal turn =>
          rcases turn.erases lost.1 lost.2 with ⟨phase', rfl, less, lost'⟩ | ⟨rfl, gone⟩
          · exact .inl ⟨phase', (processes _ _).mpr (.inr ⟨rfl, rfl⟩), less, lost'⟩
          · refine .inr ⟨fun q here => ?_, gone⟩
            rcases (processes pid q).mp here with ⟨different, _⟩ | ⟨_, ended⟩
            · exact different rfl
            · cases ended

theorem stepProcess_of_gone (gone : ∀ p, (pid, p) ∉ s.cache.processes) : s.stepProcess pid = none := by
  have none : s.cache.process? pid = none := by
    cases found : s.cache.process? pid with
    | none => rfl
    | some p => exact absurd (Cache.mem_of_process? found) (gone p)
  simp [stepProcess, Cache.step, none]

theorem stepProcess_of_removal (counted : s.cache.Counted) (member : (pid, .removal r) ∈ s.cache.processes) :
    ∃ s', s.stepProcess pid = some s' := by
  have found := Cache.process?_of_mem counted.pids member
  obtain ⟨c, stepped⟩ := Option.ne_none_iff_exists'.mp (stepRemoval_ne_none : s.cache.stepRemoval pid r ≠ none)
  exact ⟨{ s with cache := c }, by simp [stepProcess, Cache.step, found, stepped]⟩

/-- Alone, a removal gets as far as dropping the table. -/
theorem Beside.drive (beside : Beside before pid key s) (member : (pid, .removal ⟨key, phase⟩) ∈ s.cache.processes)
    (lost : s.HasLost key phase) (early : phase.work ≤ n + 1) : Beside before pid key (drive pid n s) ∧
      ((∃ table, (pid, .removal ⟨key, .dropping table⟩) ∈ (drive pid n s).cache.processes) ∨
        ∀ p, (pid, p) ∉ (drive pid n s).cache.processes) ∧
      (drive pid n s).IsAbsent key := by
  induction n generalizing s phase with
  | zero =>
    cases phase with
    | dropping table => exact ⟨beside, .inl ⟨table, member⟩, lost.1 (show 1 ≤ 4 by decide), lost.2 (Nat.le_refl 1)⟩
    | _ => exact absurd early (by decide)
  | succ n ih =>
    obtain ⟨s', stepped⟩ := stepProcess_of_removal beside.counted member
    obtain ⟨beside', ⟨next, member', less, lost'⟩ | ⟨ended, gone⟩⟩ := beside.step member lost stepped
    · rw [drive, stepped]
      exact ih beside' member' lost' (by omega)
    · have stays : drive pid n s' = s' := by
        cases n with
        | zero => rfl
        | succ n => rw [drive, stepProcess_of_gone ended]
      rw [drive, stepped]
      dsimp only
      rw [stays]
      exact ⟨beside', .inr ended, gone⟩

end Removal

theorem Beside.removes (beside : Beside s pid key s') (gone : s'.IsAbsent key) : s.Removes [key] s' where
  processor := beside.processor
  gone other here := by
    cases mem_singleton.mp here
    exact gone
  tasks other here := by
    change (s'.cache.affairs other).task.isSome = (s.cache.affairs other).task.isSome
    rw [beside.elsewhere other fun same => here (mem_singleton.mpr same)]
  absent other absent := by
    by_cases same : other = key
    · exact same ▸ gone
    · change (s'.cache.affairs other).task = none ∧ (s'.cache.affairs other).mapped = none
      rw [beside.elsewhere other same]
      exact absent

theorem remove_removes (steady : s.cache.Steady) (key : TableName) :
    (s.remove key).cache.Steady ∧ s.Removes [key] (s.remove key) := by
  let pid := s.cache.next
  let begun : Simulation := { s with cache := s.cache.remove key }
  have begins : s.Reaches begun := .act (.remove key) rfl
  have beside : Beside s pid key begun := by
    refine ⟨(begins.wellRun steady.wellRun).counted, rfl, fun _ _ => rfl, fun number p different here => ?_⟩
    rcases mem_append.mp here with old | new
    · exact old
    · cases mem_singleton.mp new
      exact absurd rfl different
  have member : (pid, .removal ⟨key, .endingRefresh⟩) ∈ begun.cache.processes :=
    mem_append_right _ (mem_singleton_self _)
  have early : begun.HasLost key .endingRefresh :=
    ⟨fun late => absurd late (by decide), fun late => absurd late (by decide)⟩
  obtain ⟨beside', left, gone⟩ :=
    beside.drive (n := RemovalPhase.endingRefresh.work.pred) member early (Nat.le_refl _)
  have inv := (begins.trans (drive_reaches pid RemovalPhase.endingRefresh.work.pred begun)).wellRun steady.wellRun
  have removes := beside'.removes gone
  unfold remove
  dsimp only
  split
  · rename_i p found
    have keeps : (drive pid RemovalPhase.endingRefresh.work.pred begun).KeepsTasks := by
      intro number q here
      by_cases same : number = pid
      · subst same
        rcases left with ⟨name, dropping⟩ | ended
        · cases beside'.counted.process_eq here dropping
          rfl
        · exact absurd here (ended q)
      · exact keepsTasks_of_steady steady number q (beside'.others number q same here)
    exact ⟨settle_steady inv, removes.trans (keeps.settle beside'.counted)⟩
  · rename_i absent
    refine ⟨⟨inv, fun number q here => ?_⟩, removes⟩
    refine steady.runs number q (beside'.others number q ?_ here)
    rintro rfl
    have found := Cache.process?_of_mem beside'.counted.pids here
    rw [absent] at found
    cases found

theorem foldl_remove_removes (steady : s.cache.Steady) (keys : List TableName) :
    (keys.foldl remove s).cache.Steady ∧ s.Removes keys (keys.foldl remove s) := by
  induction keys generalizing s with
  | nil => exact ⟨steady, .refl s⟩
  | cons key keys ih =>
    obtain ⟨steady', first⟩ := remove_removes steady key
    obtain ⟨steady'', rest⟩ := ih steady'
    exact ⟨steady'', first.trans rest⟩

section Deploying

theorem create_of_cacheable (cacheable : s.processor.layer.isCacheable key = true) :
    s.create key = (.ok (s.cache.addTask s.processor.layer key).1,
      { s with cache := (s.cache.addTask s.processor.layer key).2 }) := by
  simp only [create, Cache.createTask, cacheable, if_true]

theorem createAll_steady (steady : s.cache.Steady)
    (cacheable : ∀ key ∈ keys, s.processor.layer.isCacheable key = true) :
    ∃ s', s.createAll keys = .ok s' ∧ s'.cache.Steady ∧ s'.processor = s.processor ∧
      (∀ key, (s'.task? key).isSome = true ↔ key ∈ keys ∨ (s.task? key).isSome = true) ∧
      s'.cache.lookup = s.cache.lookup := by
  induction keys generalizing s with
  | nil => exact ⟨s, rfl, steady, rfl, fun _ => by simp, rfl⟩
  | cons key keys ih =>
    obtain ⟨first, others⟩ := forall_mem_cons.mp cacheable
    obtain ⟨s', rest, steady', processor, tasks, tables⟩ :=
      ih (s := { s with cache := (s.cache.addTask s.processor.layer key).2 }) (steady.addTask _ key) others
    refine ⟨s', ?_, steady', processor, fun other => ?_, tables⟩
    · rw [createAll, create_of_cacheable first]
      exact rest
    · have new : task? { s with cache := (s.cache.addTask s.processor.layer key).2 } other =
          if other = key then some { id := s.cache.next, key } else s.task? other := KeyMap.get?_set
      rw [tasks, new, mem_cons]
      by_cases same : other = key <;> simp [same]

theorem mapM_finished (complete : ∀ key ∈ keys, ∃ t, s.task? key = some t ∧ t.key = key ∧ t.status.isFinal = true) :
    ∃ tasks : List Task, keys.mapM s.finished? = some (tasks.map some) ∧ tasks.map (·.key) = keys ∧
      ∀ t ∈ tasks, s.task? t.key = some t := by
  induction keys with
  | nil => exact ⟨[], rfl, rfl, fun _ here => nomatch here⟩
  | cons key keys ih =>
    obtain ⟨t, found, rfl, final⟩ := complete key mem_cons_self
    obtain ⟨tasks, finished, named, latest⟩ := ih fun other late => complete other (mem_cons_of_mem _ late)
    have first : s.finished? t.key = some (some t) := by
      simp only [finished?, found, final, if_true]
    refine ⟨t :: tasks, ?_, congrArg (t.key :: ·) named, ?_⟩
    · rw [mapM_cons, first, finished]
      rfl
    · intro other here
      rcases mem_cons.mp here with rfl | late
      · exact found
      · exact latest other late

theorem mapM_of_unfinished (wanted : key ∈ keys) (unfinished : s.finished? key = none) :
    keys.mapM s.finished? = none := by
  induction keys with
  | nil => cases wanted
  | cons first keys ih =>
    rw [mapM_cons]
    rcases mem_cons.mp wanted with rfl | late
    · rw [unfinished]
      rfl
    · rw [ih late]
      cases s.finished? first <;> rfl

/-- When all wait, the tasks of some objects are over, or some run waits at the gate. -/
theorem mapM_finished_settle (steady : s.cache.Steady) (present : ∀ key ∈ keys, (s.settle.task? key).isSome = true) :
    (∃ tasks : List Task, keys.mapM s.settle.finished? = some (tasks.map some) ∧ tasks.map (·.key) = keys ∧
      ∀ t ∈ tasks, s.settle.task? t.key = some t ∧ t.status.isFinal = true) ∨
    keys.mapM s.settle.finished? = none ∧ s.settle.waiting ≠ [] := by
  have inv := (settle_steady steady.wellRun).wellRun
  by_cases complete : ∀ key ∈ keys, ∃ t, s.settle.task? key = some t ∧ t.key = key ∧ t.status.isFinal = true
  · obtain ⟨tasks, finished, named, latest⟩ := mapM_finished complete
    refine .inl ⟨tasks, finished, named, fun t here => ⟨latest t here, ?_⟩⟩
    obtain ⟨t', found, _, final⟩ := complete t.key (named ▸ mem_map_of_mem here)
    cases (latest t here).symm.trans found
    exact final
  · push Not at complete
    obtain ⟨key, wanted, unfinished⟩ := complete
    obtain ⟨t, found⟩ := Option.isSome_iff_exists.mp (present key wanted)
    obtain ⟨own, ends⟩ := inv.pursued key t found
    have going := unfinished t found own
    refine .inr ⟨mapM_of_unfinished wanted ?_, fun free => ?_⟩
    · simp [finished?, found, going]
    · obtain ⟨pid, r, member, _⟩ := ends.resolve_left going
      rw [(settle_isStuck steady.wellRun.counted).idle inv.counted inv.one free] at member
      cases member

/-- What a deployment of a layer leaves, and what it answers; nothing if it goes on waiting. -/
structure Caches (l : Layer) (answer : Option (List Task)) (s : Simulation) : Prop where
  layer : s.processor.layer = l
  tasks : ∀ key, (s.task? key).isSome = true ↔ key ∈ l.preAggregated
  tables : ∀ key, key ∉ l.preAggregated → s.cache.lookup key = none
  /-- There is one task for each wanted object, and it is over. -/
  returned : ∀ tasks, answer = some tasks → (tasks.map (·.key)).Nodup ∧ (tasks.map (·.key)).Perm l.preAggregated ∧
    ∀ t ∈ tasks, s.task? t.key = some t ∧ t.status.isFinal = true
  /-- Only a run that waits at the gate can keep it waiting. -/
  awaited : answer = none → s.waiting ≠ []

theorem isAbsent_of_unknown (unknown : key ∉ s.knownKeys) : s.IsAbsent key := by
  rw [knownKeys, mem_orderedKeys, mem_append, not_or, KeyMap.mem_keys, KeyMap.mem_keys,
    Option.not_isSome_iff_eq_none, Option.not_isSome_iff_eq_none] at unknown
  exact unknown

/-- The objects that have a task or a table and are not wanted. -/
def forgotten (s : Simulation) : List TableName :=
  s.knownKeys.filter fun key => !(orderedKeys s.processor.layer.preAggregated).contains key

theorem refresh_steady (steady : s.cache.Steady) : ∃ answer s',
    (s.forgotten.foldl remove s).createAll (orderedKeys s.processor.layer.preAggregated) = .ok s' ∧
    s.refresh = (.ok answer, s'.settle) ∧ s'.settle.cache.Steady ∧ Caches s.processor.layer answer s'.settle ∧
    ∀ tasks, answer = some tasks → tasks.map (·.key) = orderedKeys s.processor.layer.preAggregated := by
  let wanted := orderedKeys s.processor.layer.preAggregated
  obtain ⟨steady₁, removes⟩ := foldl_remove_removes steady s.forgotten
  have cacheable : ∀ key ∈ wanted, (s.forgotten.foldl remove s).processor.layer.isCacheable key = true := by
    intro key member
    rw [removes.processor]
    exact Layer.isCacheable_of_preAggregated (mem_orderedKeys.mp member)
  obtain ⟨s₂, created, steady₂, processor, tasks, tables⟩ := createAll_steady steady₁ cacheable
  have counted := steady₂.wellRun.counted
  have same := (keepsTasks_of_steady steady₂).settle counted
  have steady₃ := settle_steady steady₂.wellRun
  have unwanted : ∀ key, key ∉ wanted → (s.forgotten.foldl remove s).IsAbsent key := by
    intro key other
    by_cases known : key ∈ s.knownKeys
    · exact removes.gone key (mem_filter.mpr ⟨known, by simpa using other⟩)
    · exact removes.absent key (isAbsent_of_unknown known)
  have present : ∀ key, (s₂.settle.task? key).isSome = true ↔ key ∈ wanted := by
    intro key
    rw [same.tasks key not_mem_nil, tasks]
    refine or_iff_left_of_imp fun left => ?_
    by_contra other
    rw [(unwanted key other).1] at left
    cases left
  have absent : ∀ key, key ∉ wanted → s₂.settle.IsAbsent key := by
    intro key other
    refine same.absent key ⟨?_, ?_⟩
    · rw [← Option.not_isSome_iff_eq_none, tasks, (unwanted key other).1]
      simp [other]
    · rw [tables]
      exact (unwanted key other).2
  have perm := orderedKeys_perm s.processor.layer.preAggregated_nodup
  have caches : ∀ answer : Option (List Task), (∀ tasks, answer = some tasks → tasks.map (·.key) = wanted ∧
      ∀ t ∈ tasks, s₂.settle.task? t.key = some t ∧ t.status.isFinal = true) →
      (answer = none → s₂.settle.waiting ≠ []) → Caches s.processor.layer answer s₂.settle := by
    intro answer returned awaited
    refine ⟨?_, fun key => (present key).trans mem_orderedKeys, fun key other => ?_, fun tasks given => ?_, awaited⟩
    · rw [same.processor, processor, removes.processor]
    · exact (absent key (mem_orderedKeys.not.mpr other)).2
    · obtain ⟨named, ended⟩ := returned tasks given
      rw [named]
      exact ⟨perm.nodup_iff.mpr s.processor.layer.preAggregated_nodup, perm, ended⟩
  have refreshed : s.refresh = (.ok ((wanted.mapM s₂.settle.finished?).map (·.filterMap id)), s₂.settle) := by
    unfold refresh
    dsimp only
    rw [show ((s.knownKeys.filter fun key => !wanted.contains key).foldl remove s).createAll wanted = .ok s₂ from created]
  rcases mapM_finished_settle steady₂ fun key => (present key).mpr with ⟨tasks, finished, ended⟩ | ⟨unfinished, waits⟩
  · rw [finished] at refreshed
    refine ⟨some tasks, s₂, created, ?_, steady₃, caches _ (fun _ given => ?_) nofun, fun _ given => ?_⟩
    · simpa using refreshed
    · cases given
      exact ended
    · cases given
      exact ended.1
  · rw [unfinished] at refreshed
    exact ⟨none, s₂, created, refreshed, steady₃, caches _ nofun fun _ => waits, nofun⟩

end Deploying

/-- What clients ask for, what the data source does, and the time that passes. -/
inductive Event where
  | create (key : TableName)
  | untilDone (key : TableName)
  | remove (key : TableName)
  | refresh
  | deploy (m : Manifest)
  | query (sql : String)
  | stop
  | setRules (rules : List Rule)
  | setGate (closed : Bool)
  | release (count : Nat)
  | advance (nanos : Nat)
  | settle

def after (s : Simulation) : Event → Simulation
  | .create key => (s.create key).2
  | .untilDone key => (s.untilDone key).2
  | .remove key => s.remove key
  | .refresh => s.refresh.2
  | .deploy m => (s.deploy m).2
  | .query sql => (s.query sql).2
  | .stop => s.stop
  | .setRules rules => s.setRules rules
  | .setGate closed => s.setGate closed
  | .release count => s.release count
  | .advance nanos => s.advance nanos
  | .settle => s.settle

section Events

theorem release_steady (steady : s.cache.Steady) (count : Nat) : (s.release count).cache.Steady := by
  have answers : ∀ (source : Source) (passing : List (Nat × String)) (c : Cache), c.Steady →
      (passing.foldl (fun cache passed => cache.answer passed.1 (source.answer passed.2)) c).Steady := by
    intro source passing
    induction passing with
    | nil => exact fun _ => id
    | cons first passing ih => exact fun c steady => ih _ (steady.answer first.1 _)
  exact answers _ _ _ steady

theorem advanceTo_steady (steady : s.cache.Steady) (time n : Nat) : (advanceTo time n s).cache.Steady := by
  induction n generalizing s with
  | zero => exact steady
  | succ n ih =>
    unfold advanceTo
    cases due : s.dueTimer? time with
    | none =>
      exact ⟨steady.wellRun.setClock time, steady.runs⟩
    | some t =>
      obtain ⟨place, found⟩ := mem_iff_getElem?.mp (mem_timers_of_dueTimer? due)
      exact ih (settle_steady ((steady.wellRun.setClock t.due).acts (.goOff found)))

theorem ask_cache (s : Simulation) (sql : String) : (s.ask sql).2.cache = s.cache := by
  unfold ask
  dsimp only
  split <;> rfl

theorem queryLive_cache (s : Simulation) (sql : String) : (s.queryLive sql).2.cache = s.cache := by
  unfold queryLive
  split
  · rfl
  · rename_i live _
    have same := s.ask_cache live
    split <;> rename_i asked <;> rw [asked] at same <;> exact same

theorem query_steady (steady : s.cache.Steady) (sql : String) : (s.query sql).2.cache.Steady := by
  unfold query
  split
  · exact steady
  · rw [queryLive_cache]
    exact settle_steady steady.wellRun
  · rw [queryLive_cache]
    exact steady

theorem deploy_steady (steady : s.cache.Steady) (m : Manifest) : (s.deploy m).2.cache.Steady ∧
    match Layer.ofManifest m with
    | .error e => s.deploy m = (.error (.manifest e), s)
    | .ok l => ∃ answer s', s.deploy m = (.ok answer, s') ∧ Caches l answer s' := by
  unfold deploy
  cases checked : Layer.ofManifest m with
  | error e => exact ⟨steady, rfl⟩
  | ok l =>
    obtain ⟨answer, s', _, refreshed, steady', caches, _⟩ :=
      refresh_steady (s := { s with processor := { s.processor with layer := l } }) steady
    dsimp only
    rw [refreshed]
    exact ⟨steady', answer, s'.settle, rfl, caches⟩

theorem after_steady (steady : s.cache.Steady) (event : Event) : (s.after event).cache.Steady := by
  cases event with
  | create key =>
    unfold after create Cache.createTask
    dsimp only
    split
    · rename_i created
      split at created
      · cases created
        exact steady.addTask _ key
      · cases created
    · exact steady
  | untilDone key =>
    unfold after untilDone
    dsimp only
    split
    · exact steady
    · exact settle_steady steady.wellRun
  | remove key => exact (remove_removes steady key).1
  | refresh =>
    obtain ⟨answer, s', _, refreshed, steady', _⟩ := refresh_steady steady
    change s.refresh.2.cache.Steady
    rw [refreshed]
    exact steady'
  | deploy m => exact (deploy_steady steady m).1
  | query sql => exact query_steady steady sql
  | stop => exact ⟨steady.wellRun.acts .stop, steady.runs⟩
  | setRules rules | setGate closed => exact steady
  | release count => exact release_steady steady count
  | advance nanos => exact advanceTo_steady (settle_steady steady.wellRun) _ _
  | settle => exact settle_steady steady.wellRun

theorem foldl_after_steady (steady : s.cache.Steady) (events : List Event) : (events.foldl after s).cache.Steady := by
  induction events generalizing s with
  | nil => exact steady
  | cons event events ih => exact ih (after_steady steady event)

theorem steady_empty : ({} : Cache).Steady := ⟨Cache.wellRun_empty, fun _ _ member => nomatch member⟩

/-- Whatever has happened before, a deployment of a faulty manifest changes nothing, and a deployment of any other one
does not fail. -/
theorem deploy_after (p : Processor) (sizeLimit retryDelay : Nat) (events : List Event) (m : Manifest) :
    match Layer.ofManifest m with
    | .error e => (events.foldl after (fresh p sizeLimit retryDelay)).deploy m =
      (.error (.manifest e), events.foldl after (fresh p sizeLimit retryDelay))
    | .ok l => ∃ answer s', (events.foldl after (fresh p sizeLimit retryDelay)).deploy m = (.ok answer, s') ∧
      Caches l answer s' :=
  (deploy_steady (foldl_after_steady steady_empty events) m).2

end Events

end Simulation

end SemanticLayer
