import SemanticLayer.Proofs.Accounts
import SemanticLayer.Proofs.Histories

/-! # Turns

A step of a process is about a single object: it changes what the maps hold about that object, and where
the process itself is. `Run.Turn`, `Firing.Turn` and `Removal.Turn` list what a step can be, with the
conditions under which it is taken. `step_steps` says that every step of a cache is one of them, and what
it does to the tables in the store and to their owners.
-/

namespace SemanticLayer

/-- What the maps hold about an object. -/
structure Affairs where
  task : Option Task
  mapped : Option String
  refresh : Option Nat
  retry : Option Nat
  lock : Option Nat

namespace Affairs

variable (a : Affairs)

def setTimer (timer : Option Nat) : TimerKind → Affairs
  | .refresh => { a with refresh := timer }
  | .retry => { a with retry := timer }

/-- The object has no newer task, and it has not been removed. -/
def IsLatest (id : Nat) : Prop := ∃ t, a.task = some t ∧ t.id = id

end Affairs

def Cache.affairs (c : Cache) (key : TableName) : Affairs :=
  ⟨c.tasks.get? key, c.tables.get? key, c.refreshes.get? key, c.retries.get? key, c.locks.get? key⟩

def Process.key : Process → TableName
  | .run r => r.key
  | .firing f => f.key
  | .removal r => r.key

def Process.run? : Process → Option Run
  | .run r => some r
  | .firing _ | .removal _ => none

/-- Phases between which a run touches no map. -/
inductive RunPhase.Passes : RunPhase → RunPhase → Prop
  | request (ticket : Nat) : Passes .requesting (.waiting ticket)
  | compile (sql : String) : Passes .compiling (.asking sql)
  | misread (e : CacheError) : Passes .compiling (.cleaning e)
  | answer (sql : String) (reply : Except SourceError Records) : Passes (.asking sql) (.writing reply)
  | write (reply : Except SourceError Records) : Passes (.writing reply) .installing
  | reject (reply : Except SourceError Records) (e : CacheError) : Passes (.writing reply) (.cleaning e)
  | replace (previous : Option String) : Passes (.replacing previous) .finishing
  | arm (kind : TimerKind) (period timer : Nat) : Passes (.arming kind period) (.keeping kind timer)
  | discard : Passes .discarding .leaving
  | clean (e : CacheError) : Passes (.cleaning e) (.failing e)

/-- Where a run goes when it finds that its task is not the latest. -/
inductive RunPhase.Yields : RunPhase → RunPhase → Prop
  | start : Yields .starting .leaving
  | install : Yields .installing .discarding
  | finish : Yields .finishing .leaving
  | fail (e : CacheError) : Yields (.failing e) .leaving
  | check (kind : TimerKind) : Yields (.checking kind) (.undoing kind)

/-- What follows once the retry of an object that has been copied is cancelled. -/
def Run.Schedules (r : Run) (phase : RunPhase) : Prop :=
  phase = .endingRefresh ∨
    ∃ period, r.layer.refreshTime? r.key.table = some period ∧ period.nanos ≠ 0 ∧ phase = .arming .refresh period.nanos

namespace Cache

/-- A lock is forgotten only if nobody has a share of it. -/
def ForgetsLock (c : Cache) (a a' : Affairs) : Prop :=
  a' = a ∨ ∃ lock, a.lock = some lock ∧ c.isShared lock = false ∧ a' = { a with lock := none }

end Cache

/-- What a run can do next, where `a` is what the maps hold about its object. -/
inductive Run.Turn (c : Cache) (pid : Nat) (r : Run) (a : Affairs) : Option Process → Affairs → Prop
  | pass {phase : RunPhase} : r.phase.Passes phase → Turn c pid r a (some (.run { r with phase })) a
  | join {lock : Nat} : r.phase = .joining → a.lock = some lock ∨ a.lock = none →
      Turn c pid r a (some (.run { r with lock := some lock, phase := .requesting })) { a with lock := some lock }
  | acquire {ticket lock : Nat} : r.phase = .waiting ticket → r.lock = some lock →
      (∀ other p, (other, p) ∈ c.processes → other ≠ pid → Cache.precedes lock ticket p = false) →
      Turn c pid r a (some (.run { r with phase := .starting })) a
  | start {t : Task} {now : Nat} : r.phase = .starting → a.task = some t → t.id = r.task →
      Turn c pid r a (some (.run { r with phase := .compiling })) { a with task := some (t.start now r.table) }
  | install : r.phase = .installing → a.IsLatest r.task →
      Turn c pid r a (some (.run { r with phase := .replacing a.mapped })) { a with mapped := some r.table }
  | finish {t : Task} {now : Nat} : r.phase = .finishing → a.task = some t → t.id = r.task →
      Turn c pid r a (some (.run { r with phase := .endingRetry })) { a with task := some (t.finish now) }
  | fail {t : Task} {now : Nat} {e : CacheError} : r.phase = .failing e → a.task = some t → t.id = r.task →
      Turn c pid r a (some (.run { r with phase := .pausingRefresh }))
        { a with task := some (t.fail now (Task.failure r.key e)) }
  | yield {phase : RunPhase} : r.phase.Yields phase → ¬a.IsLatest r.task →
      Turn c pid r a (some (.run { r with phase })) a
  | endRetry {phase : RunPhase} : r.phase = .endingRetry → r.Schedules phase →
      Turn c pid r a (some (.run { r with phase })) { a with retry := none }
  | endRefresh : r.phase = .endingRefresh →
      Turn c pid r a (some (.run { r with phase := .leaving })) { a with refresh := none }
  | pause {delay : Nat} : r.phase = .pausingRefresh →
      Turn c pid r a (some (.run { r with phase := .arming .retry delay })) { a with refresh := none }
  | keep {kind : TimerKind} {timer : Nat} : r.phase = .keeping kind timer →
      Turn c pid r a (some (.run { r with phase := .checking kind })) (a.setTimer (some timer) kind)
  | confirm {kind : TimerKind} : r.phase = .checking kind → a.IsLatest r.task →
      Turn c pid r a (some (.run { r with phase := .leaving })) a
  | undo {kind : TimerKind} : r.phase = .undoing kind →
      Turn c pid r a (some (.run { r with phase := .leaving })) (a.setTimer none kind)
  | release : r.phase = .leaving → Turn c pid r a (some (.run { r with phase := .parting })) a
  | part : r.phase = .parting → Turn c pid r a (some (.run { r with lock := none, phase := .looking })) a
  | stay : r.phase = .looking → a.task ≠ none → Turn c pid r a none a
  | miss : r.phase = .looking → a.task = none → Turn c pid r a (some (.run { r with phase := .forgetting })) a
  | forget {a' : Affairs} : r.phase = .forgetting → c.ForgetsLock a a' → Turn c pid r a none a'

/-- What a timer that has gone off can do next, other than creating a task. -/
inductive Firing.Turn (c : Cache) (f : Firing) (a : Affairs) : Option Process → Affairs → Prop
  | gone : f.phase = .looking → a.task = none → Turn c f a none a
  | seen {phase : FiringPhase} : f.phase = .looking → a.task ≠ none → phase = .joining ∨ phase = .creating →
      Turn c f a (some (.firing { f with phase })) a
  | join {lock : Nat} : f.phase = .joining → a.lock = some lock ∨ a.lock = none →
      Turn c f a (some (.firing { f with phase := .probing lock })) { a with lock := some lock }
  | skip {lock : Nat} : f.phase = .probing lock → Turn c f a none a
  | probe {lock : Nat} : f.phase = .probing lock →
      (∀ other p, (other, p) ∈ c.processes → Cache.wantsLock lock p = false) →
      Turn c f a (some (.firing { f with phase := .creating })) a
  | refuse : f.phase = .creating → Turn c f a none a

/-- What a removal can do next. -/
inductive Removal.Turn (c : Cache) (r : Removal) (a : Affairs) : Option Process → Affairs → Prop
  | endRefresh : r.phase = .endingRefresh →
      Turn c r a (some (.removal { r with phase := .endingRetry })) { a with refresh := none }
  | endRetry : r.phase = .endingRetry →
      Turn c r a (some (.removal { r with phase := .erasingTask })) { a with retry := none }
  | eraseTask : r.phase = .erasingTask →
      Turn c r a (some (.removal { r with phase := .looking })) { a with task := none }
  | seen : r.phase = .looking → a.task ≠ none → Turn c r a (some (.removal { r with phase := .unmapping })) a
  | gone : r.phase = .looking → a.task = none → Turn c r a (some (.removal { r with phase := .forgetting })) a
  | forget {a' : Affairs} : r.phase = .forgetting → c.ForgetsLock a a' →
      Turn c r a (some (.removal { r with phase := .unmapping })) a'
  | unmap {table : String} : r.phase = .unmapping → a.mapped = some table →
      Turn c r a (some (.removal { r with phase := .dropping table })) { a with mapped := none }
  | unmapped : r.phase = .unmapping → a.mapped = none → Turn c r a none a
  | drop {table : String} : r.phase = .dropping table → Turn c r a none a

/-- What a process can do next; nothing is left of it when it ends. -/
inductive Process.Turn (c : Cache) (pid : Nat) (a : Affairs) : Process → Option Process → Affairs → Prop
  | run {r : Run} {next : Option Process} {a' : Affairs} : r.Turn c pid a next a' → Turn c pid a (.run r) next a'
  | firing {f : Firing} {next : Option Process} {a' : Affairs} : f.Turn c a next a' →
      Turn c pid a (.firing f) next a'
  | removal {r : Removal} {next : Option Process} {a' : Affairs} : r.Turn c a next a' →
      Turn c pid a (.removal r) next a'

theorem Process.Turn.key_eq {c : Cache} {pid : Nat} {a a' : Affairs} {p q : Process}
    (turn : p.Turn c pid a (some q) a') : q.key = p.key := by
  cases turn with
  | run turn => cases turn <;> rfl
  | firing turn => cases turn <;> rfl
  | removal turn => cases turn <;> rfl

namespace Cache

variable {settings : CacheSettings} {c c' core : Cache} {pid : Nat} {key : TableName} {a : Affairs} {id : Nat}
  {change : Task → Task}

/-- What the maps hold about one object becomes `a`, and all else stays. -/
structure Alters (c : Cache) (key : TableName) (a : Affairs) (core : Cache) : Prop where
  own : core.affairs key = a
  others : ∀ other, other ≠ key → core.affairs other = c.affairs other
  processes : core.processes = c.processes
  next : c.next ≤ core.next

section Alters

variable (c key)

theorem alters_nothing : Alters c key (c.affairs key) c :=
  ⟨rfl, fun _ _ => rfl, rfl, Nat.le_refl _⟩

theorem alters_store (store : Store) : Alters c key (c.affairs key) { c with store } :=
  ⟨rfl, fun _ _ => rfl, rfl, Nat.le_refl _⟩

theorem alters_next : Alters c key (c.affairs key) { c with next := c.next + 1 } :=
  ⟨rfl, fun _ _ => rfl, rfl, Nat.le_succ _⟩

theorem alters_startTimer (kind : TimerKind) (layer : Layer) (period : Nat) :
    Alters c key (c.affairs key) (c.startTimer kind key layer period) :=
  ⟨rfl, fun _ _ => rfl, rfl, Nat.le_succ _⟩

theorem alters_task (t : Task) :
    Alters c key { c.affairs key with task := some t } { c with tasks := c.tasks.set key t } := by
  refine ⟨?_, fun other apart => ?_, rfl, Nat.le_refl _⟩
  · simp [affairs]
  · simp [affairs, KeyMap.get?_set, apart]

theorem alters_eraseTask : Alters c key { c.affairs key with task := none } { c with tasks := c.tasks.erase key } := by
  refine ⟨?_, fun other apart => ?_, rfl, Nat.le_refl _⟩
  · simp [affairs]
  · simp [affairs, KeyMap.get?_erase, apart]

theorem alters_table (table : String) :
    Alters c key { c.affairs key with mapped := some table } { c with tables := c.tables.set key table } := by
  refine ⟨?_, fun other apart => ?_, rfl, Nat.le_refl _⟩
  · simp [affairs]
  · simp [affairs, KeyMap.get?_set, apart]

theorem alters_unmap : Alters c key { c.affairs key with mapped := none } { c with tables := c.tables.erase key } := by
  refine ⟨?_, fun other apart => ?_, rfl, Nat.le_refl _⟩
  · simp [affairs]
  · simp [affairs, KeyMap.get?_erase, apart]

theorem alters_endTimer (kind : TimerKind) :
    Alters c key ((c.affairs key).setTimer none kind) (c.endTimer kind key) := by
  cases kind with
  | refresh | retry =>
    refine ⟨?_, fun other apart => ?_, rfl, Nat.le_refl _⟩
    · simp [affairs, Affairs.setTimer, endTimer, setHandles, handles, cancel]
    · simp [affairs, endTimer, setHandles, handles, cancel, KeyMap.get?_erase, apart]

theorem alters_keepTimer (kind : TimerKind) (timer : Nat) :
    Alters c key ((c.affairs key).setTimer (some timer) kind) (c.keepTimer kind key timer) := by
  cases kind with
  | refresh | retry =>
    refine ⟨?_, fun other apart => ?_, rfl, Nat.le_refl _⟩
    · simp [affairs, Affairs.setTimer, keepTimer, setHandles, handles, cancel]
    · simp [affairs, keepTimer, setHandles, handles, cancel, KeyMap.get?_set, apart]

theorem alters_joinLock : ((c.affairs key).lock = some (c.joinLock key).1 ∨ (c.affairs key).lock = none) ∧
    Alters c key { c.affairs key with lock := some (c.joinLock key).1 } (c.joinLock key).2 := by
  unfold joinLock
  split
  · rename_i lock found
    refine ⟨.inl found, ?_, fun _ _ => rfl, rfl, Nat.le_refl _⟩
    simp [affairs, found]
  · rename_i absent
    refine ⟨.inr absent, ?_, fun other apart => ?_, rfl, Nat.le_succ _⟩
    · simp [affairs]
    · simp [affairs, KeyMap.get?_set, apart]

theorem alters_forgetLock : ∃ a, c.ForgetsLock (c.affairs key) a ∧ Alters c key a (c.forgetLock key) := by
  unfold forgetLock
  split
  · rename_i lock found
    split
    · exact ⟨_, .inl rfl, c.alters_nothing key⟩
    · rename_i free
      refine ⟨_, .inr ⟨lock, found, Bool.eq_false_iff.mpr free, rfl⟩, ?_⟩
      refine ⟨?_, fun other apart => ?_, rfl, Nat.le_refl _⟩
      · simp [affairs]
      · simp [affairs, KeyMap.get?_erase, apart]
  · exact ⟨_, .inl rfl, c.alters_nothing key⟩

end Alters

/-- How a step of a process changes the cache. -/
inductive Moves (c : Cache) (pid : Nat) (p : Process) : Cache → Prop
  | goes {core : Cache} {q : Process} {a : Affairs} : Alters c p.key a core →
      p.Turn c pid (c.affairs p.key) (some q) a → Moves c pid p (core.setProcess pid q)
  | ends {core : Cache} {a : Affairs} : Alters c p.key a core →
      p.Turn c pid (c.affairs p.key) none a → Moves c pid p (core.endProcess pid)
  | begins {f : Firing} : p = .firing f → f.phase = .creating → f.layer.isCacheable f.key = true →
      Moves c pid p ((c.endProcess pid).addTask f.layer f.key).2

theorem has_iff : c.tasks.has key = true ↔ (c.affairs key).task ≠ none := Option.isSome_iff_ne_none

theorem not_has_iff : ¬c.tasks.has key = true ↔ (c.affairs key).task = none := by
  rw [has_iff, not_not]

theorem not_isLatest (other : c.isLatest key id = false) : ¬(c.affairs key).IsLatest id := by
  rintro ⟨t, found, same⟩
  rw [isLatest_eq found same] at other
  cases other

theorem isLatest_of_eq (latest : c.isLatest key id = true) : (c.affairs key).IsLatest id := by
  unfold isLatest at latest
  split at latest
  · rename_i t found
    exact ⟨t, found, eq_of_beq latest⟩
  · cases latest

theorem updateTask?_some (changed : c.updateTask? key id change = some c') :
    ∃ t, c.tasks.get? key = some t ∧ t.id = id ∧ c' = { c with tasks := c.tasks.set key (change t) } := by
  unfold updateTask? at changed
  split at changed
  · rename_i t found
    split at changed
    · rename_i same
      cases changed
      exact ⟨t, found, eq_of_beq same, rfl⟩
    · cases changed
  · cases changed

theorem updateTask?_none (kept : c.updateTask? key id change = none) : ¬(c.affairs key).IsLatest id := by
  rintro ⟨t, found, same⟩
  rw [updateTask?_eq found same] at kept
  cases kept

/-- A step is a turn of a process, and the account of the process is kept. -/
structure Steps (c : Cache) (pid : Nat) (p : Process) (c' : Cache) : Prop where
  moves : Moves c pid p c'
  proceeds : Proceeds pid p c c'

/-- Neither the tables of objects nor those in the store are touched. -/
def SameTables (c core : Cache) : Prop := core.tables = c.tables ∧ core.store = c.store

theorem endTimer_tables (kind : TimerKind) (key : TableName) : c.SameTables (c.endTimer kind key) := by
  cases kind <;> exact ⟨rfl, rfl⟩

theorem keepTimer_tables (kind : TimerKind) (key : TableName) (timer : Nat) :
    c.SameTables (c.keepTimer kind key timer) := by
  cases kind <;> exact ⟨rfl, rfl⟩

theorem joinLock_tables (key : TableName) : c.SameTables (c.joinLock key).2 := by
  unfold joinLock
  split <;> exact ⟨rfl, rfl⟩

theorem forgetLock_tables (key : TableName) : c.SameTables (c.forgetLock key) ∧ (c.forgetLock key).next = c.next := by
  unfold forgetLock
  split
  · split <;> exact ⟨⟨rfl, rfl⟩, rfl⟩
  · exact ⟨⟨rfl, rfl⟩, rfl⟩

section Accounts

variable {p q : Process} (alters : Alters c p.key a core)

include alters

theorem Steps.goes (turn : p.Turn c pid (c.affairs p.key) (some q) a) (shift : Shift (c.account p) (core.account q)) :
    Steps c pid p (core.setProcess pid q) :=
  ⟨.goes alters turn, .goes core q alters.processes shift rfl⟩

theorem Steps.ends (turn : p.Turn c pid (c.affairs p.key) none a) (shift : Shift (c.account p) (core.account none)) :
    Steps c pid p (core.endProcess pid) :=
  ⟨.ends alters turn, .ends core alters.processes shift rfl⟩

theorem Steps.quiet (turn : p.Turn c pid (c.affairs p.key) (some q) a) (same : c.SameTables core := by exact ⟨rfl, rfl⟩)
    (claims : q.holds = p.holds ∧ q.reserves = p.reserves := by exact ⟨rfl, rfl⟩) :
    Steps c pid p (core.setProcess pid q) := by
  refine .goes alters turn ?_
  unfold account
  rw [same.1, same.2]
  simp only [Option.elim_some, claims.1, claims.2]
  exact .keep alters.next

theorem Steps.yield (turn : p.Turn c pid (c.affairs p.key) none a)
    (same : c.SameTables core ∧ core.next = c.next := by exact ⟨⟨rfl, rfl⟩, rfl⟩)
    (free : p.holds = [] := by rfl) : Steps c pid p (core.endProcess pid) := by
  refine .ends alters turn ?_
  unfold account
  rw [same.1.1, same.1.2, same.2]
  simp only [Option.elim_some, Option.elim_none, free]
  exact .yield

omit alters in
theorem Steps.still (turn : p.Turn c pid (c.affairs p.key) (some q) (c.affairs p.key))
    (claims : q.holds = p.holds ∧ q.reserves = p.reserves := by exact ⟨rfl, rfl⟩) :
    Steps c pid p (c.setProcess pid q) :=
  .quiet (c.alters_nothing p.key) turn ⟨rfl, rfl⟩ claims

end Accounts

section Runs

variable {r : Run}

theorem stepRun_task (updates : r.phase = .starting ∨ r.phase = .finishing ∨ ∃ e, r.phase = .failing e)
    (stepped : c.stepRun settings pid r = some c') : Steps c pid (.run r) c' := by
  obtain ⟨task, key, layer, lock, phase⟩ := r
  rcases updates with rfl | rfl | ⟨e, rfl⟩
  all_goals
    unfold stepRun at stepped
    dsimp only at stepped
    split at stepped <;> rename_i updated
  · obtain ⟨t, found, same, rfl⟩ := updateTask?_some updated
    cases stepped
    exact .quiet (c.alters_task key _) (.run (.start rfl found same))
  · cases stepped
    exact .goes (c.alters_nothing key) (.run (.yield .start (updateTask?_none updated))) .yield
  · obtain ⟨t, found, same, rfl⟩ := updateTask?_some updated
    cases stepped
    exact .quiet (c.alters_task key _) (.run (.finish rfl found same))
  · cases stepped
    exact .still (.run (.yield .finish (updateTask?_none updated)))
  · obtain ⟨t, found, same, rfl⟩ := updateTask?_some updated
    cases stepped
    exact .quiet (c.alters_task key _) (.run (.fail rfl found same))
  · cases stepped
    exact .still (.run (.yield (.fail e) (updateTask?_none updated)))

/-- The steps in which a run writes its table, puts it in the place of another one or drops it. -/
theorem stepRun_table (changes : 15 ≤ r.phase.work ∧ r.phase.work ≤ 17)
    (other : ∀ e, r.phase ≠ .failing e) (stepped : c.stepRun settings pid r = some c') : Steps c pid (.run r) c' := by
  obtain ⟨task, key, layer, lock, phase⟩ := r
  cases phase with
  | writing reply =>
    unfold stepRun at stepped
    dsimp only at stepped
    split at stepped
    · rename_i store written
      obtain ⟨t, named, added⟩ := writeTable_ok written
      cases stepped
      refine .goes (c.alters_store key _) (.run (.pass (.write reply))) ?_
      have write := @Shift.write c.tables _ _ c.next t added
      rw [named] at write
      exact write
    · cases stepped
      exact .still (.run (.pass (.reject reply _)))
  | installing =>
    unfold stepRun at stepped
    dsimp only at stepped
    split at stepped <;> rename_i latest
    · cases stepped
      exact .goes (c.alters_table key _) (.run (.install rfl (isLatest_of_eq latest))) (.install key)
    · cases stepped
      exact .still (.run (.yield .install (not_isLatest (Bool.eq_false_iff.mpr latest))))
  | replacing previous =>
    unfold stepRun at stepped
    dsimp only at stepped
    cases previous with
    | none =>
      cases stepped
      exact .still (.run (.pass (.replace _)))
    | some old =>
      have holds : (Process.run ⟨task, key, layer, lock, .replacing (some old)⟩).holds =
          if old == Task.tableName key task then [] else [old] := by
        by_cases same : old = Task.tableName key task <;> simp [Process.holds, Run.table, same]
      dsimp only at stepped
      split at stepped <;> rename_i same
      · cases stepped
        rw [if_pos same] at holds
        exact .still (.run (.pass (.replace _))) ⟨holds.symm, rfl⟩
      · cases stepped
        rw [if_neg same] at holds
        refine .goes (c.alters_store key _) (.run (.pass (.replace _))) ?_
        unfold account
        rw [Option.elim_some, holds]
        exact .drop
  | discarding =>
    cases stepped
    exact .goes (c.alters_store key _) (.run (.pass .discard)) .drop
  | cleaning e =>
    cases stepped
    exact .goes (c.alters_store key _) (.run (.pass (.clean e))) .clean
  | failing e => exact absurd rfl (other e)
  | _ => exact absurd changes (by simp [RunPhase.work])

theorem stepRun_steps (stepped : c.stepRun settings pid r = some c') : Steps c pid (.run r) c' := by
  obtain ⟨task, key, layer, lock, phase⟩ := r
  cases phase with
  | starting => exact stepRun_task (.inl rfl) stepped
  | finishing => exact stepRun_task (.inr (.inl rfl)) stepped
  | failing e => exact stepRun_task (.inr (.inr ⟨e, rfl⟩)) stepped
  | joining =>
    have next : c' = (c.joinLock key).2.setProcess pid
        (.run ⟨task, key, layer, some (c.joinLock key).1, .requesting⟩) := (Option.some.inj stepped).symm
    rw [next]
    exact .quiet (c.alters_joinLock key).2 (.run (.join rfl (c.alters_joinLock key).1)) (joinLock_tables key)
  | requesting =>
    cases stepped
    exact .quiet (c.alters_next key) (.run (.pass (.request _)))
  | waiting ticket =>
    unfold stepRun at stepped
    dsimp only at stepped
    split at stepped
    · cases stepped
    · rename_i lock
      split at stepped
      · cases stepped
      · rename_i first
        cases stepped
        refine .still (.run (.acquire rfl rfl fun other p member apart => ?_))
        rw [← Bool.not_eq_true]
        intro precedes
        exact first (List.any_eq_true.mpr ⟨(other, p), member, by simp [apart, precedes]⟩)
  | compiling =>
    unfold stepRun at stepped
    dsimp only at stepped
    split at stepped
    · cases stepped
      exact .still (.run (.pass (.compile _)))
    · cases stepped
      exact .still (.run (.pass (.misread _)))
  | asking sql => cases stepped
  | endingRetry =>
    unfold stepRun at stepped
    dsimp only at stepped
    split at stepped
    · rename_i period wanted
      split at stepped <;> rename_i never
      · cases stepped
        exact .quiet (c.alters_endTimer key .retry) (.run (.endRetry rfl (.inl rfl)))
      · cases stepped
        exact .quiet (c.alters_endTimer key .retry) (.run (.endRetry rfl (.inr ⟨period, wanted, never, rfl⟩)))
    · cases stepped
      exact .quiet (c.alters_endTimer key .retry) (.run (.endRetry rfl (.inl rfl)))
  | endingRefresh =>
    cases stepped
    exact .quiet (c.alters_endTimer key .refresh) (.run (.endRefresh rfl))
  | arming kind period =>
    cases stepped
    exact .quiet (c.alters_startTimer key kind layer period) (.run (.pass (.arm kind period _)))
  | keeping kind timer =>
    cases stepped
    exact .quiet (c.alters_keepTimer key kind timer) (.run (.keep rfl)) (keepTimer_tables kind key timer)
  | pausingRefresh =>
    cases stepped
    exact .quiet (c.alters_endTimer key .refresh) (.run (.pause rfl))
  | checking kind =>
    unfold stepRun at stepped
    dsimp only at stepped
    split at stepped <;> rename_i latest
    · cases stepped
      exact .still (.run (.confirm rfl (isLatest_of_eq latest)))
    · cases stepped
      exact .still (.run (.yield (.check kind) (not_isLatest (Bool.eq_false_iff.mpr latest))))
  | undoing kind =>
    cases stepped
    exact .quiet (c.alters_endTimer key kind) (.run (.undo rfl)) (endTimer_tables kind key)
  | leaving =>
    cases stepped
    exact .still (.run (.release rfl))
  | parting =>
    cases stepped
    exact .still (.run (.part rfl))
  | looking =>
    unfold stepRun at stepped
    dsimp only at stepped
    split at stepped <;> rename_i known
    · cases stepped
      exact .yield (c.alters_nothing key) (.run (.stay rfl (has_iff.mp known)))
    · cases stepped
      exact .still (.run (.miss rfl (not_has_iff.mp known)))
  | forgetting =>
    obtain ⟨a, forgets, alters⟩ := c.alters_forgetLock key
    cases stepped
    exact .yield alters (.run (.forget rfl forgets)) (forgetLock_tables key)
  | writing | installing | replacing | discarding | cleaning =>
    exact stepRun_table (by simp [RunPhase.work]) (by simp) stepped

end Runs

theorem stepFiring_steps {f : Firing} (stepped : c.stepFiring pid f = some c') : Steps c pid (.firing f) c' := by
  obtain ⟨kind, key, layer, phase⟩ := f
  cases phase with
  | looking =>
    unfold stepFiring at stepped
    dsimp only at stepped
    split at stepped <;> rename_i known
    · have absent : (c.affairs key).task = none := not_has_iff.mp (by simpa using known)
      cases stepped
      exact .yield (c.alters_nothing key) (.firing (.gone rfl absent))
    · have present : (c.affairs key).task ≠ none := has_iff.mp (by simpa using known)
      cases kind with
      | refresh =>
        cases stepped
        exact .still (.firing (.seen rfl present (.inl rfl)))
      | retry =>
        cases stepped
        exact .still (.firing (.seen rfl present (.inr rfl)))
  | joining =>
    have next : c' = (c.joinLock key).2.setProcess pid
        (.firing ⟨kind, key, layer, .probing (c.joinLock key).1⟩) := (Option.some.inj stepped).symm
    rw [next]
    exact .quiet (c.alters_joinLock key).2 (.firing (.join rfl (c.alters_joinLock key).1)) (joinLock_tables key)
  | probing lock =>
    unfold stepFiring at stepped
    dsimp only at stepped
    split at stepped <;> rename_i wanted
    · cases stepped
      exact .yield (c.alters_nothing key) (.firing (.skip rfl))
    · cases stepped
      refine .still (.firing (.probe rfl fun other p member => ?_))
      rw [← Bool.not_eq_true]
      intro wants
      exact wanted (List.any_eq_true.mpr ⟨(other, p), member, wants⟩)
  | creating =>
    unfold stepFiring createTask at stepped
    dsimp only at stepped
    by_cases cacheable : layer.isCacheable key = true
    · rw [if_pos cacheable] at stepped
      cases stepped
      exact ⟨.begins (f := ⟨kind, key, layer, .creating⟩) rfl rfl cacheable, .begins layer key .yield rfl⟩
    · rw [if_neg cacheable] at stepped
      cases stepped
      exact .yield (c.alters_nothing key) (.firing (.refuse rfl))

theorem stepRemoval_steps {r : Removal} (stepped : c.stepRemoval pid r = some c') : Steps c pid (.removal r) c' := by
  obtain ⟨key, phase⟩ := r
  cases phase with
  | endingRefresh =>
    cases stepped
    exact .quiet (c.alters_endTimer key .refresh) (.removal (.endRefresh rfl))
  | endingRetry =>
    cases stepped
    exact .quiet (c.alters_endTimer key .retry) (.removal (.endRetry rfl))
  | erasingTask =>
    cases stepped
    exact .quiet (c.alters_eraseTask key) (.removal (.eraseTask rfl))
  | looking =>
    unfold stepRemoval at stepped
    dsimp only at stepped
    split at stepped <;> rename_i known
    · cases stepped
      exact .still (.removal (.seen rfl (has_iff.mp known)))
    · cases stepped
      exact .still (.removal (.gone rfl (not_has_iff.mp known)))
  | forgetting =>
    obtain ⟨a, forgets, alters⟩ := c.alters_forgetLock key
    cases stepped
    exact .quiet alters (.removal (.forget rfl forgets)) (forgetLock_tables key).1
  | unmapping =>
    unfold stepRemoval at stepped
    dsimp only at stepped
    split at stepped
    · rename_i table found
      cases stepped
      exact .goes (c.alters_unmap key) (.removal (.unmap rfl found)) (.unmap key found)
    · rename_i absent
      cases stepped
      exact .yield (c.alters_nothing key) (.removal (.unmapped rfl absent))
  | dropping table =>
    cases stepped
    exact .ends (c.alters_store key _) (.removal (.drop rfl)) .drop

/-- Every step of a cache is a turn of one of its processes. -/
theorem step_steps (stepped : c.step settings pid = some c') : ∃ p, (pid, p) ∈ c.processes ∧ Steps c pid p c' := by
  unfold step at stepped
  cases found : c.process? pid with
  | none =>
    rw [found] at stepped
    cases stepped
  | some p =>
    rw [found] at stepped
    refine ⟨p, mem_of_process? found, ?_⟩
    cases p with
    | run r => exact stepRun_steps stepped
    | firing f => exact stepFiring_steps stepped
    | removal r => exact stepRemoval_steps stepped

theorem answer_steps (c : Cache) (pid : Nat) (reply : Except SourceError Records) :
    c.answer pid reply = c ∨ ∃ r, (pid, .run r) ∈ c.processes ∧ Steps c pid (.run r) (c.answer pid reply) := by
  unfold answer
  split
  · rename_i r found
    split
    · rename_i sql asking
      refine .inr ⟨_, mem_of_process? found, .still (.run (.pass ?_)) ?_⟩
      · rw [asking]
        exact .answer sql reply
      · simp [Process.holds, Process.reserves, asking, Run.table]
    · exact .inl rfl
  · exact .inl rfl

end Cache

/-- Whether an action is no new request: processes go on, the data source answers, or time passes. -/
def Action.isOngoing : Action → Bool
  | .proceed _ | .answer _ _ | .setClock _ => true
  | .create _ _ | .remove _ | .goOff _ | .stop => false

namespace Cache

variable {settings : CacheSettings} {c c' : Cache} {pid : Nat} {p : Process} {action : Action} {key : TableName}

/-- How an action changes the cache. -/
inductive Acts (c : Cache) : Action → Cache → Prop
  | create {layer : Layer} {key : TableName} : layer.isCacheable key = true →
      Acts c (.create layer key) (c.addTask layer key).2
  | remove {key : TableName} : Acts c (.remove key) (c.remove key)
  | goOff {place : Nat} {t : Timer} : c.timers[place]? = some t → Acts c (.goOff place) (c.goOff t)
  | stop : Acts c .stop c.stop
  | moves {action : Action} {pid : Nat} {p : Process} {c' : Cache} : action.isOngoing = true →
      (pid, p) ∈ c.processes → Moves c pid p c' → Acts c action c'
  | idle {action : Action} {now : Nat} : action.isOngoing = true → Acts c action { c with now }

theorem acts_of_act (acted : c.act settings action = some c') : Acts c action c' := by
  cases action with
  | create layer key =>
    obtain ⟨⟨task, next⟩, created, rfl⟩ := Option.map_eq_some_iff.mp acted
    unfold createTask at created
    split at created
    · rename_i cacheable
      cases created
      exact .create cacheable
    · cases created
  | remove key =>
    cases acted
    exact .remove
  | proceed pid =>
    obtain ⟨p, member, steps⟩ := step_steps acted
    exact .moves rfl member steps.moves
  | answer pid reply =>
    cases acted
    rcases c.answer_steps pid reply with same | ⟨r, member, steps⟩
    · rw [same]
      exact .idle rfl
    · exact .moves rfl member steps.moves
  | goOff place =>
    obtain ⟨t, found, rfl⟩ := Option.map_eq_some_iff.mp acted
    exact .goOff found
  | stop =>
    cases acted
    exact .stop
  | setClock time =>
    cases acted
    exact .idle rfl

theorem Counted.alters (inv : Counted c) {a : Affairs} (alters : Alters c key a c') : Counted c' :=
  inv.later alters.processes alters.next

theorem Counted.moves (inv : Counted c) (moves : Moves c pid p c') : Counted c' := by
  cases moves with
  | goes alters _ => exact (inv.alters alters).setProcess pid _
  | ends alters _ => exact (inv.alters alters).endProcess pid
  | begins _ _ _ => exact (inv.endProcess pid).addTask _ _

theorem Counted.acts (inv : Counted c) (acts : Acts c action c') : Counted c' := by
  cases acts with
  | create _ => exact inv.addTask _ _
  | remove | goOff _ => exact inv.spawn (Nat.le_refl _) (Nat.lt_succ_self _) rfl
  | moves _ _ moves => exact inv.moves moves
  | stop | idle _ => exact ⟨inv.pids, inv.given⟩

theorem counted_of_history {start : Cache} (idle : start.processes = []) {actions : List Action}
    (reached : start.history settings actions = some c) : Counted c := by
  refine history_preserves (P := Counted) (fun c action c' inv acted => inv.acts (acts_of_act acted)) ⟨?_, ?_⟩ reached
  · rw [idle]
    exact .nil
  · simp [idle]

theorem Counted.process_eq (inv : Counted c) {q : Process} (member : (pid, p) ∈ c.processes)
    (member' : (pid, q) ∈ c.processes) : p = q := by
  have found := process?_of_mem inv.pids member
  rw [process?_of_mem inv.pids member'] at found
  exact (Option.some.inj found).symm

/-- What a step of a process leaves: what the maps hold about its object is as its turn says, and so is the
    process. -/
theorem Moves.turns (moves : Moves c pid p c') (member : (pid, p) ∈ c.processes) :
    (∃ f, p = .firing f ∧ f.phase = .creating ∧ c' = ((c.endProcess pid).addTask f.layer f.key).2) ∨
    ∃ next, p.Turn c pid (c.affairs p.key) next (c'.affairs p.key) ∧
      (∀ other, other ≠ p.key → c'.affairs other = c.affairs other) ∧
      ∀ other q, (other, q) ∈ c'.processes ↔
        other ≠ pid ∧ (other, q) ∈ c.processes ∨ other = pid ∧ next = some q := by
  cases moves with
  | @goes core q a alters turn =>
    have known : pid ∈ core.processes.map (·.1) := alters.processes ▸ List.mem_map_of_mem member
    have own : (core.setProcess pid q).affairs p.key = a := alters.own
    refine .inr ⟨some q, own ▸ turn, alters.others, fun other q' => ?_⟩
    rw [mem_setProcess, alters.processes, Option.some.injEq, eq_comm (a := q)]
    exact or_congr_right ⟨fun here => ⟨here.1, here.2.1⟩, fun here => ⟨here.1, here.2, alters.processes ▸ known⟩⟩
  | @ends core a alters turn =>
    have own : (core.endProcess pid).affairs p.key = a := alters.own
    refine .inr ⟨none, own ▸ turn, alters.others, fun other q => ?_⟩
    rw [mem_endProcess, alters.processes]
    exact ⟨.inl, fun here => here.elim id nofun⟩
  | @begins f firing creating _ => exact .inl ⟨f, firing, creating, rfl⟩

theorem addTask_elsewhere (layer : Layer) {other : TableName} (apart : key ≠ other) :
    (c.addTask layer other).2.affairs key = c.affairs key :=
  (c.alters_task other { id := c.next, key := other }).others key apart

theorem Moves.elsewhere (moves : Moves c pid p c') (counted : Counted c) (member : (pid, p) ∈ c.processes)
    (apart : p.key ≠ key) : c'.affairs key = c.affairs key ∧
      ∀ other q, q.key = key → ((other, q) ∈ c'.processes ↔ (other, q) ∈ c.processes) := by
  have different : ∀ other q, q.key = key → (other, q) ∈ c.processes → other ≠ pid := by
    rintro other q own old rfl
    rw [counted.process_eq old member] at own
    exact apart own
  rcases moves.turns member with ⟨f, rfl, _, rfl⟩ | ⟨next, turn, others, processes⟩
  · refine ⟨addTask_elsewhere f.layer (Ne.symm apart), fun other q own => ?_⟩
    change _ ∈ (c.endProcess pid).processes ++ [_] ↔ _
    rw [List.mem_append, mem_endProcess, List.mem_singleton, Prod.mk.injEq]
    constructor
    · rintro (⟨_, old⟩ | ⟨_, rfl⟩)
      · exact old
      · exact absurd own apart
    · exact fun old => .inl ⟨different other q own old, old⟩
  · refine ⟨others key (Ne.symm apart), fun other q own => ?_⟩
    rw [processes]
    constructor
    · rintro (⟨_, old⟩ | ⟨_, here⟩)
      · exact old
      · subst here
        exact absurd (turn.key_eq.symm.trans own) apart
    · exact fun old => .inl ⟨different other q own old, old⟩

end Cache

end SemanticLayer
