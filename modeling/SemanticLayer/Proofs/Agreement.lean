import SemanticLayer.Proofs.Turns

/-! # How the maps agree

As long as at most one process goes on about each object, the maps agree with each other: an object without a
task has no table and no timer, an object that has been copied has the table of its task and no retry, and one
that has failed says why and has no refresh. Each phase of a process has its own part of this, and when the
process ends the whole is in place again.
-/

namespace SemanticLayer

variable {q : Process}

/-- The layer wants an object to be copied again from time to time. -/
def Layer.Refreshes (l : Layer) (key : TableName) : Prop :=
  ∃ period, l.refreshTime? key.table = some period ∧ period.nanos ≠ 0

/-- How the maps agree about an object for which nothing goes on, where `last` is the layer of its last run. -/
inductive Affairs.Settled (key : TableName) (last : Option Layer) (a : Affairs) : Prop
  | gone : a.task = none → a.mapped = none → a.refresh = none → a.retry = none → Settled key last a
  | done {t : Task} {table : String} : a.task = some t → t.status = .done → t.table = some table →
      a.mapped = some table → a.retry = none →
      (a.refresh ≠ none → ∃ l, last = some l ∧ l.Refreshes key) → Settled key last a
  | failed {t : Task} : a.task = some t → t.status = .failed → t.error ≠ none → a.refresh = none →
      Settled key last a

namespace Affairs.Settled

variable {key : TableName} {last : Option Layer} {a : Affairs} (settled : a.Settled key last)

include settled

theorem agrees : (a.task = none → a.mapped = none ∧ a.refresh = none ∧ a.retry = none) ∧
    (∀ t, a.task = some t → t.status = .done → t.table ≠ none ∧ a.mapped = t.table ∧ a.retry = none) ∧
    (∀ t, a.task = some t → t.status = .failed → t.error ≠ none ∧ a.refresh = none) ∧
    (a.refresh ≠ none → (∃ t, a.task = some t ∧ t.status = .done) ∧ ∃ l, last = some l ∧ l.Refreshes key) ∧
    (a.retry ≠ none → ∃ t, a.task = some t ∧ t.status = .failed) := by
  cases settled with
  | gone task mapped refresh retry => simp [task, mapped, refresh, retry]
  | done task status table mapped retry refresh =>
    simp only [task, retry]
    refine ⟨nofun, ?_, ?_, fun present => ⟨⟨_, rfl, status⟩, refresh present⟩, nofun⟩
    · rintro _ ⟨⟩ _
      exact ⟨table ▸ nofun, mapped.trans table.symm, trivial⟩
    · rintro _ ⟨⟩ failed
      rw [status] at failed
      cases failed
  | failed task status error refresh =>
    simp only [task, refresh]
    refine ⟨nofun, ?_, ?_, nofun, fun _ => ⟨_, rfl, status⟩⟩
    · rintro _ ⟨⟩ done
      rw [status] at done
      cases done
    · rintro _ ⟨⟩ _
      exact ⟨error, trivial⟩

theorem stop : Affairs.Settled key last { a with refresh := none, retry := none } := by
  cases settled with
  | gone task mapped _ _ => exact .gone task mapped rfl rfl
  | done task status table mapped _ _ => exact .done task status table mapped rfl nofun
  | failed task status error _ => exact .failed task status error rfl

theorem join (lock : Option Nat) : Affairs.Settled key last { a with lock } := by
  cases settled with
  | gone task mapped refresh retry => exact .gone task mapped refresh retry
  | done task status table mapped retry refresh => exact .done task status table mapped retry refresh
  | failed task status error refresh => exact .failed task status error refresh

end Affairs.Settled

namespace Run

variable (r : Run) (a : Affairs)

/-- The latest task of the object is the one of the run. -/
def Owns (p : Task → Prop) : Prop := ∃ t, a.task = some t ∧ t.id = r.task ∧ p t

def HasCopied : Prop := r.Owns a (fun t => t.status = .done ∧ t.table = some r.table) ∧ a.mapped = some r.table

def HasFailed : Prop := r.Owns a fun t => t.status = .failed ∧ t.error ≠ none

/-- How the maps agree about the object of a run in each of its phases. -/
def Stage (last : Option Layer) : Prop :=
  match r.phase with
  | .joining | .requesting | .waiting _ | .starting => a.IsLatest r.task
  | .compiling | .asking _ | .writing _ | .installing | .cleaning _ | .failing _ => r.Owns a (·.table = some r.table)
  | .replacing _ | .finishing => r.Owns a (·.table = some r.table) ∧ a.mapped = some r.table
  | .endingRetry => r.HasCopied a
  | .endingRefresh => r.HasCopied a ∧ a.retry = none
  | .arming .refresh _ | .keeping .refresh _ | .checking .refresh =>
    r.HasCopied a ∧ a.retry = none ∧ r.layer.Refreshes r.key
  | .pausingRefresh => r.HasFailed a
  | .arming .retry _ | .keeping .retry _ | .checking .retry => r.HasFailed a ∧ a.refresh = none
  | .leaving | .parting | .looking => a.Settled r.key last ∧ a.task ≠ none
  -- A run gets here only if a newer task or a removal has overtaken it.
  | .discarding | .undoing _ | .forgetting => False

end Run

/-- How the maps agree about the object of a removal in each of its phases. -/
def Removal.Stage (r : Removal) (a : Affairs) : Prop :=
  match r.phase with
  | .endingRefresh => True
  | .endingRetry => a.refresh = none
  | .erasingTask => a.refresh = none ∧ a.retry = none
  | .looking | .forgetting | .unmapping => a.task = none ∧ a.refresh = none ∧ a.retry = none
  | .dropping _ => a.task = none ∧ a.mapped = none ∧ a.refresh = none ∧ a.retry = none

/-- How the maps agree about the object of a process, where `last` is the layer of its last run. -/
def Process.Stage (last : Option Layer) (a : Affairs) : Process → Prop
  | .run r => last = some r.layer ∧ r.Stage a last
  | .firing f => a.Settled f.key last
  | .removal r => r.Stage a

section Turns

variable {c : Cache} {pid : Nat} {a a' : Affairs} {last : Option Layer} {r : Run} {f : Firing} {p : Process}

theorem Run.Owns.isLatest {p : Task → Prop} (owns : r.Owns a p) : a.IsLatest r.task := by
  obtain ⟨t, found, same, _⟩ := owns
  exact ⟨t, found, same⟩

theorem Run.HasCopied.settled (copied : r.HasCopied a) (retry : a.retry = none)
    (refresh : a.refresh ≠ none → ∃ l, last = some l ∧ l.Refreshes r.key) : a.Settled r.key last ∧ a.task ≠ none := by
  obtain ⟨⟨t, found, _, status, table⟩, mapped⟩ := copied
  refine ⟨.done found status table mapped retry refresh, ?_⟩
  rw [found]
  nofun

theorem Run.HasFailed.settled (failed : r.HasFailed a) (refresh : a.refresh = none) :
    a.Settled r.key last ∧ a.task ≠ none := by
  obtain ⟨t, found, _, status, error⟩ := failed
  refine ⟨.failed found status error refresh, ?_⟩
  rw [found]
  nofun

/-- While nobody else touches the object of a run, its task stays the latest. -/
theorem Run.Stage.not_yields {phase : RunPhase} (stage : r.Stage a last) (yields : r.phase.Yields phase) :
    a.IsLatest r.task := by
  obtain ⟨task, key, layer, lock, current⟩ := r
  cases yields with
  | start => exact stage
  | install => exact Owns.isLatest stage
  | finish => exact stage.1.isLatest
  | fail e => exact Owns.isLatest stage
  | check kind =>
    cases kind with
    | refresh => exact stage.1.1.isLatest
    | retry => exact stage.1.isLatest

theorem Run.Turn.stage (turn : r.Turn c pid a (some q) a') (layer : last = some r.layer)
    (stage : r.Stage a last) : q.Stage last a' := by
  have latest : ∀ phase, r.phase.Yields phase → a.IsLatest r.task := fun phase => stage.not_yields
  obtain ⟨task, key, own, lock, phase⟩ := r
  cases turn with
  | pass passes =>
    cases passes with
    | arm kind period timer => cases kind <;> exact ⟨layer, stage⟩
    | discard => exact stage.elim
    | _ => exact ⟨layer, stage⟩
  | join here _ | acquire here _ _ =>
    subst here
    exact ⟨layer, stage⟩
  | start here found same =>
    subst here
    exact ⟨layer, _, rfl, same, rfl⟩
  | install here _ =>
    subst here
    exact ⟨layer, stage, rfl⟩
  | @finish t now here found same =>
    subst here
    obtain ⟨⟨t', found', _, table⟩, mapped⟩ := stage
    rw [found] at found'
    cases found'
    exact ⟨layer, ⟨_, rfl, same, rfl, table⟩, mapped⟩
  | fail here found same =>
    subst here
    exact ⟨layer, _, rfl, same, rfl, nofun⟩
  | yield yields other => exact (other (latest _ yields)).elim
  | endRetry here schedules =>
    subst here
    rcases schedules with rfl | ⟨period, wanted, nonzero, rfl⟩
    · exact ⟨layer, stage, rfl⟩
    · exact ⟨layer, stage, rfl, period, wanted, nonzero⟩
  | endRefresh here =>
    subst here
    exact ⟨layer, HasCopied.settled stage.1 stage.2 nofun⟩
  | pause here =>
    subst here
    exact ⟨layer, stage, rfl⟩
  | @keep kind timer here =>
    subst here
    cases kind with
    | refresh => exact ⟨layer, stage⟩
    | retry => exact ⟨layer, stage⟩
  | @confirm kind here _ =>
    subst here
    cases kind with
    | refresh => exact ⟨layer, HasCopied.settled stage.1 stage.2.1 fun _ => ⟨own, layer, stage.2.2⟩⟩
    | retry => exact ⟨layer, HasFailed.settled stage.1 stage.2⟩
  | undo here =>
    subst here
    exact stage.elim
  | release here | part here =>
    subst here
    exact ⟨layer, stage⟩
  | miss here absent =>
    subst here
    exact (stage.2 absent).elim

theorem Run.Turn.settled (turn : r.Turn c pid a none a') (stage : r.Stage a last) : a'.Settled r.key last := by
  obtain ⟨task, key, own, lock, phase⟩ := r
  cases turn with
  | stay here _ =>
    subst here
    exact stage.1
  | forget here _ =>
    subst here
    exact stage.elim

theorem Cache.ForgetsLock.same (forgets : c.ForgetsLock a a') :
    a'.task = a.task ∧ a'.mapped = a.mapped ∧ a'.refresh = a.refresh ∧ a'.retry = a.retry := by
  rcases forgets with rfl | ⟨lock, _, _, rfl⟩
  · exact ⟨rfl, rfl, rfl, rfl⟩
  · exact ⟨rfl, rfl, rfl, rfl⟩

theorem Firing.Turn.stage (turn : f.Turn c a (some q) a') (settled : a.Settled f.key last) : q.Stage last a' := by
  cases turn with
  | seen _ _ _ => exact settled
  | join _ _ => exact settled.join _
  | probe _ _ => exact settled

theorem Firing.Turn.settled (turn : f.Turn c a none a') (settled : a.Settled f.key last) : a'.Settled f.key last := by
  cases turn <;> exact settled

theorem Removal.Turn.stage {r : Removal} (turn : r.Turn c a (some q) a') (stage : r.Stage a) : q.Stage last a' := by
  obtain ⟨key, phase⟩ := r
  cases turn with
  | endRefresh here =>
    subst here
    exact rfl
  | endRetry here =>
    subst here
    exact ⟨stage, rfl⟩
  | eraseTask here =>
    subst here
    exact ⟨rfl, stage⟩
  | seen here present =>
    subst here
    exact (present stage.1).elim
  | gone here _ =>
    subst here
    exact stage
  | forget here forgets =>
    subst here
    obtain ⟨task, _, refresh, retry⟩ := forgets.same
    exact ⟨task.trans stage.1, refresh.trans stage.2.1, retry.trans stage.2.2⟩
  | unmap here _ =>
    subst here
    exact ⟨stage.1, rfl, stage.2⟩

theorem Removal.Turn.settled {r : Removal} (turn : r.Turn c a none a') (stage : r.Stage a) : a'.Settled r.key last := by
  obtain ⟨key, phase⟩ := r
  cases turn with
  | unmapped here absent =>
    subst here
    exact .gone stage.1 absent stage.2.1 stage.2.2
  | drop here =>
    subst here
    exact .gone stage.1 stage.2.1 stage.2.2.1 stage.2.2.2

theorem Process.Turn.stage (turn : p.Turn c pid a (some q) a') (stage : p.Stage last a) : q.Stage last a' := by
  cases turn with
  | run turn => exact turn.stage stage.1 stage.2
  | firing turn => exact turn.stage stage
  | removal turn => exact turn.stage stage

theorem Process.Turn.settled (turn : p.Turn c pid a none a') (stage : p.Stage last a) : a'.Settled p.key last := by
  cases turn with
  | run turn => exact turn.settled stage.2
  | firing turn => exact turn.settled stage
  | removal turn => exact turn.settled stage

end Turns

/-- The layer of the last run of each object. -/
abbrev Journal := KeyMap Layer

namespace Cache

variable {settings : CacheSettings} {c c' core : Cache} {journal journal' : Journal} {pid : Nat} {p : Process}
  {key : TableName} {action : Action} {number : Nat}

/-- The run that begins between two states: its number had not been given away. -/
def begun (c c' : Cache) : Option Run :=
  c'.processes.findSome? fun (pid, p) => if c.next ≤ pid then p.run? else none

/-- The journal, with the run that begins between two states. -/
def noted (c c' : Cache) (journal : Journal) : Journal :=
  (c.begun c').elim journal fun r => journal.set r.key r.layer

theorem noted_of_old (old : ∀ pid p, (pid, p) ∈ c'.processes → pid < c.next) : c.noted c' journal = journal := by
  have none : c.begun c' = none := by
    apply List.findSome?_eq_none_iff.mpr
    intro (pid, p) member
    exact if_neg (Nat.not_le.mpr (old pid p member))
  rw [noted, none, Option.elim_none]

theorem begun_of_spawn (p : Process) {before : List (Nat × Process)} (old : ∀ pid p, (pid, p) ∈ before → pid < c.next)
    (processes : c'.processes = before ++ [(number, p)]) (later : c.next ≤ number) : c.begun c' = p.run? := by
  have none : before.findSome? (fun (pid, p) => if c.next ≤ pid then p.run? else none) = none := by
    apply List.findSome?_eq_none_iff.mpr
    intro (pid, p) member
    exact if_neg (Nat.not_le.mpr (old pid p member))
  rw [begun, processes, List.findSome?_append, none]
  simp [later]

/-- Nothing goes on about an object. -/
def IsQuiet (c : Cache) (key : TableName) : Prop := ∀ pid p, (pid, p) ∈ c.processes → p.key ≠ key

/-- At most one process goes on about each object, and the maps agree about it. -/
structure Orderly (c : Cache) (journal : Journal) : Prop where
  counted : Counted c
  alone : ∀ pid p pid' p', (pid, p) ∈ c.processes → (pid', p') ∈ c.processes → p.key = p'.key → pid = pid'
  stages : ∀ pid p, (pid, p) ∈ c.processes → p.Stage (journal.get? p.key) (c.affairs p.key)
  settled : ∀ key, c.IsQuiet key → (c.affairs key).Settled key (journal.get? key)

section Steps

variable (inv : Orderly c journal) {a : Affairs}

include inv

theorem Orderly.apart (member : (pid, p) ∈ c.processes) {other : Nat}
    (member' : (other, q) ∈ c.processes) (different : other ≠ pid) : q.key ≠ p.key :=
  fun same => different (inv.alone other q pid p member' member same)

theorem Orderly.goes (member : (pid, p) ∈ c.processes) (alters : Alters c p.key a core)
    (turn : p.Turn c pid (c.affairs p.key) (some q) a) : Orderly (core.setProcess pid q) journal := by
  have same : q.key = p.key := turn.key_eq
  have split : ∀ other q', (other, q') ∈ (core.setProcess pid q).processes →
      other ≠ pid ∧ (other, q') ∈ c.processes ∨ other = pid ∧ q' = q := by
    intro other q' member'
    rw [← alters.processes]
    exact (mem_setProcess.mp member').imp_right fun here => ⟨here.1, here.2.1⟩
  have stays : (pid, q) ∈ (core.setProcess pid q).processes :=
    mem_setProcess.mpr (.inr ⟨rfl, rfl, alters.processes ▸ List.mem_map_of_mem member⟩)
  refine ⟨(inv.counted.alters alters).setProcess pid q, ?_, ?_, ?_⟩
  · intro other q' other' q'' member' member'' sameKey
    rcases split other q' member' with ⟨different, old⟩ | ⟨rfl, rfl⟩
    · rcases split other' q'' member'' with ⟨_, old'⟩ | ⟨rfl, rfl⟩
      · exact inv.alone other q' other' q'' old old' sameKey
      · exact absurd (sameKey.trans same) (inv.apart member old different)
    · rcases split other' q'' member'' with ⟨different, old'⟩ | ⟨rfl, rfl⟩
      · exact absurd (sameKey.symm.trans same) (inv.apart member old' different)
      · rfl
  · intro other q' member'
    change q'.Stage _ (core.affairs q'.key)
    rcases split other q' member' with ⟨different, old⟩ | ⟨rfl, rfl⟩
    · rw [alters.others q'.key (inv.apart member old different)]
      exact inv.stages other q' old
    · rw [same, alters.own]
      exact turn.stage (inv.stages other p member)
  · intro key quiet
    have elsewhere : key ≠ p.key := fun here => quiet pid q stays (same.trans here.symm)
    change (core.affairs key).Settled key _
    rw [alters.others key elsewhere]
    refine inv.settled key fun other q' old here => ?_
    have different : other ≠ pid := by
      rintro rfl
      rw [inv.counted.process_eq old member] at here
      exact elsewhere here.symm
    exact quiet other q' (mem_setProcess.mpr (.inl ⟨different, alters.processes ▸ old⟩)) here

theorem Orderly.ends (member : (pid, p) ∈ c.processes) (alters : Alters c p.key a core)
    (settled : a.Settled p.key (journal.get? p.key)) :
    Orderly (core.endProcess pid) journal ∧ (core.endProcess pid).IsQuiet p.key := by
  have split : ∀ other q, (other, q) ∈ (core.endProcess pid).processes ↔ other ≠ pid ∧ (other, q) ∈ c.processes := by
    intro other q
    rw [mem_endProcess, alters.processes]
  refine ⟨⟨(inv.counted.alters alters).endProcess pid, ?_, ?_, ?_⟩, ?_⟩
  · intro other q other' q' member' member''
    exact inv.alone other q other' q' ((split _ _).mp member').2 ((split _ _).mp member'').2
  · intro other q member'
    obtain ⟨different, old⟩ := (split other q).mp member'
    change q.Stage _ (core.affairs q.key)
    rw [alters.others q.key (inv.apart member old different)]
    exact inv.stages other q old
  · intro key quiet
    change (core.affairs key).Settled key _
    by_cases here : key = p.key
    · rw [here, alters.own]
      exact settled
    · rw [alters.others key here]
      refine inv.settled key fun other q old same => ?_
      have different : other ≠ pid := by
        rintro rfl
        rw [inv.counted.process_eq old member] at same
        exact here same.symm
      exact quiet other q ((split other q).mpr ⟨different, old⟩) same
  · intro other q member'
    obtain ⟨different, old⟩ := (split other q).mp member'
    exact inv.apart member old different

theorem Orderly.spawn (quiet : c.IsQuiet p.key)
    (processes : c'.processes = c.processes ++ [(number, p)]) (later : c.next ≤ number) (next : number < c'.next)
    (others : ∀ key, key ≠ p.key → c'.affairs key = c.affairs key ∧ journal'.get? key = journal.get? key)
    (stage : p.Stage (journal'.get? p.key) (c'.affairs p.key)) : Orderly c' journal' := by
  have split : ∀ other q, (other, q) ∈ c'.processes ↔ (other, q) ∈ c.processes ∨ other = number ∧ q = p := by
    intro other q
    rw [processes, List.mem_append, List.mem_singleton, Prod.mk.injEq]
  refine ⟨inv.counted.spawn later next processes, ?_, ?_, ?_⟩
  · intro other q other' q' member member' same
    rcases (split other q).mp member with old | ⟨rfl, rfl⟩
    · rcases (split other' q').mp member' with old' | ⟨rfl, rfl⟩
      · exact inv.alone other q other' q' old old' same
      · exact absurd same (quiet other q old)
    · rcases (split other' q').mp member' with old' | ⟨rfl, rfl⟩
      · exact absurd same.symm (quiet other' q' old')
      · rfl
  · intro other q member
    rcases (split other q).mp member with old | ⟨rfl, rfl⟩
    · obtain ⟨affairs, noted⟩ := others q.key (quiet other q old)
      rw [affairs, noted]
      exact inv.stages other q old
    · exact stage
  · intro key still
    have elsewhere : key ≠ p.key := by
      intro here
      exact still number p ((split number p).mpr (.inr ⟨rfl, rfl⟩)) here.symm
    obtain ⟨affairs, noted⟩ := others key elsewhere
    rw [affairs, noted]
    exact inv.settled key fun other q old => still other q ((split other q).mpr (.inl old))

theorem Orderly.addTask (quiet : c.IsQuiet key) (layer : Layer) :
    Orderly (c.addTask layer key).2 (journal.set key layer) := by
  have affairs : (c.addTask layer key).2.affairs key =
      { c.affairs key with task := some { id := c.next, key } } := (c.alters_task key { id := c.next, key }).own
  refine inv.spawn (p := .run { task := c.next, key, layer }) quiet rfl (Nat.le_succ _) (Nat.lt_succ_self _) ?_ ?_
  · intro other (apart : other ≠ key)
    refine ⟨(c.alters_task key { id := c.next, key }).others other apart, ?_⟩
    rw [KeyMap.get?_set, if_neg apart]
  · refine ⟨KeyMap.get?_set_self, ?_⟩
    change ((c.addTask layer key).2.affairs key).IsLatest c.next
    rw [affairs]
    exact ⟨_, rfl, rfl⟩

/-- What a step does is in order, whichever process takes it. -/
theorem Orderly.moves (member : (pid, p) ∈ c.processes) (moves : Moves c pid p c') :
    Orderly c' (c.noted c' journal) := by
  cases moves with
  | @goes core q a alters turn =>
    have old : ∀ other q', (other, q') ∈ (core.setProcess pid q).processes → other < c.next := by
      intro other q' member'
      have known : other ∈ (core.setProcess pid q).processes.map (·.1) := List.mem_map_of_mem member'
      rw [setProcess_pids, alters.processes] at known
      obtain ⟨entry, here, rfl⟩ := List.mem_map.mp known
      exact inv.counted.given entry.1 entry.2 here
    rw [noted_of_old old]
    exact inv.goes member alters turn
  | @ends core a alters turn =>
    have old : ∀ other q, (other, q) ∈ (core.endProcess pid).processes → other < c.next := by
      intro other q member'
      have known := (mem_endProcess.mp member').2
      rw [alters.processes] at known
      exact inv.counted.given other q known
    rw [noted_of_old old]
    exact (inv.ends member alters (turn.settled (inv.stages pid p member))).1
  | @begins f firing _ _ =>
    subst firing
    have begins : c.begun ((c.endProcess pid).addTask f.layer f.key).2 =
        some { task := c.next, key := f.key, layer := f.layer } :=
      begun_of_spawn (.run { task := c.next, key := f.key, layer := f.layer })
        (fun other q member' => inv.counted.given other q (mem_endProcess.mp member').2) rfl (Nat.le_succ _)
    rw [noted, begins, Option.elim_some]
    obtain ⟨ended, quiet⟩ := inv.ends member (c.alters_nothing f.key) (inv.stages pid _ member)
    exact ended.addTask quiet f.layer

end Steps

/-- A request about an object that nothing goes on about; all timers are given up only when nothing goes on. -/
def Calm (c : Cache) : Action → Prop
  | .create _ key | .remove key => c.IsQuiet key
  | .goOff place => ∀ t, c.timers[place]? = some t → c.IsQuiet t.key
  | .stop => c.processes = []
  | .proceed _ | .answer _ _ | .setClock _ => True

theorem isQuiet_of_rest (rest : c.processes = []) (key : TableName) : c.IsQuiet key := by
  intro pid p member
  rw [rest] at member
  cases member

theorem calm_of_rest (rest : c.processes = []) (action : Action) : c.Calm action := by
  cases action with
  | create | remove => exact isQuiet_of_rest rest _
  | goOff => exact fun t _ => isQuiet_of_rest rest t.key
  | stop => exact rest
  | proceed | answer | setClock => trivial

theorem Orderly.acts (inv : Orderly c journal) (calm : c.Calm action) (acts : Acts c action c') :
    Orderly c' (c.noted c' journal) := by
  cases acts with
  | @create layer key _ =>
    have begins : c.begun (c.addTask layer key).2 = some { task := c.next, key, layer } :=
      begun_of_spawn (.run { task := c.next, key, layer }) inv.counted.given rfl (Nat.le_succ _)
    rw [noted, begins, Option.elim_some]
    exact inv.addTask calm layer
  | @remove key =>
    have begins : c.begun (c.remove key) = none :=
      begun_of_spawn (.removal { key }) inv.counted.given rfl (Nat.le_refl _)
    rw [noted, begins, Option.elim_none]
    exact inv.spawn (p := .removal { key }) calm rfl (Nat.le_refl _) (Nat.lt_succ_self _) (fun _ _ => ⟨rfl, rfl⟩)
      trivial
  | @goOff place t found =>
    let firing : Process := .firing { kind := t.kind, key := t.key, layer := t.layer }
    have begins : c.begun (c.goOff t) = none := begun_of_spawn firing inv.counted.given rfl (Nat.le_refl _)
    rw [noted, begins, Option.elim_none]
    have quiet := calm t found
    exact inv.spawn (p := firing) quiet rfl (Nat.le_refl _) (Nat.lt_succ_self _) (fun _ _ => ⟨rfl, rfl⟩)
      (inv.settled t.key quiet)
  | stop =>
    have kept : c.noted c.stop journal = journal := noted_of_old inv.counted.given
    rw [kept]
    refine ⟨⟨inv.counted.pids, inv.counted.given⟩, inv.alone, ?_, ?_⟩
    · intro pid p member
      exact absurd rfl (isQuiet_of_rest calm p.key pid p member)
    · intro key quiet
      exact (inv.settled key quiet).stop
  | moves _ member moves => exact inv.moves member moves
  | @idle _ now _ =>
    have kept : c.noted { c with now } journal = journal := noted_of_old inv.counted.given
    rw [kept]
    exact ⟨⟨inv.counted.pids, inv.counted.given⟩, inv.alone, inv.stages, inv.settled⟩

end Cache

end SemanticLayer
