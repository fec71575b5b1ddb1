import Mathlib.Algebra.GroupWithZero.Nat
import SemanticLayer.Proofs.SingleFlight

/-! # Coming to rest

Every step leaves less to do, so all processes come to rest. What is left then are runs that wait, at the gate of the
data source or for the lock of their object, and as long as one is left some run is at the gate. A task that is not
over has a run that will end it.
-/

namespace SemanticLayer

open List

variable {phase phase' : RunPhase} {c : Cache} {pid : Nat} {a a' : Affairs} {next : Option Process}

theorem RunPhase.Passes.work_lt (passes : phase.Passes phase') : phase'.work < phase.work := by
  cases passes <;> simp [work]

theorem RunPhase.Yields.work_lt (yields : phase.Yields phase') : phase'.work < phase.work := by
  cases yields <;> simp [work]

namespace Process

variable {c : Cache} {pid : Nat} {a a' : Affairs} {p q : Process}

theorem work_pos (p : Process) : 0 < p.work := by
  cases p with
  | run r =>
    change 0 < r.phase.work
    cases r.phase <;> exact Nat.succ_pos _
  | firing f =>
    change 0 < f.phase.work
    cases f.phase <;> exact Nat.succ_pos _
  | removal r =>
    change 0 < r.phase.work
    cases r.phase <;> exact Nat.succ_pos _

def isAsking : Process → Bool
  | .run { phase := .asking _, .. } => true
  | _ => false

theorem Turn.work_lt (turn : p.Turn c pid a (some q) a') : q.work < p.work := by
  cases turn with
  | run turn =>
    cases turn with
    | pass passes => exact passes.work_lt
    | yield yields _ => exact yields.work_lt
    | endRetry here schedules => rcases schedules with rfl | ⟨_, _, _, rfl⟩ <;> simp [work, here, RunPhase.work]
    | join here _ | acquire here _ _ | start here _ _ | install here _ | finish here _ _ | fail here _ _
    | endRefresh here | pause here | keep here | confirm here _ | undo here | release here | part here | miss here _ =>
      simp [work, here, RunPhase.work]
  | firing turn =>
    cases turn with
    | seen here _ next => rcases next with rfl | rfl <;> simp [work, here, FiringPhase.work]
    | join here _ | probe here _ => simp [work, here, FiringPhase.work]
  | removal turn =>
    cases turn with
    | endRefresh here | endRetry here | eraseTask here | seen here _ | gone here _ | forget here _ | unmap here _ =>
      simp [work, here, RemovalPhase.work]

end Process

namespace Cache

section Totals

variable {c c' core : Cache} {pid : Nat} {p q : Process} {f : Nat → Process → Nat}

def total (f : Nat → Process → Nat) (c : Cache) : Nat := (c.processes.map fun (pid, p) => f pid p).sum

theorem total_eq (counted : Counted c) (member : (pid, p) ∈ c.processes) :
    c.total f = f pid p + (c.endProcess pid).total f := by
  have split := (processes_perm counted.pids member).map fun (pid, p) => f pid p
  exact split.sum_nat

theorem total_setProcess (counted : Counted c) (member : (pid, p) ∈ c.processes) (q : Process) :
    (c.setProcess pid q).total f = f pid q + (c.endProcess pid).total f := by
  have split := (setProcess_perm counted.pids member q).map fun (pid, p) => f pid p
  exact split.sum_nat

/-- A step leaves less to do, if its process counts for all its work. -/
theorem Moves.total_lt (moves : Moves c pid p c') (counted : Counted c) (member : (pid, p) ∈ c.processes)
    (bounded : ∀ number q, f number q ≤ q.work) (whole : f pid p = p.work) : c'.total f < c.total f := by
  rw [total_eq counted member, whole]
  have positive := p.work_pos
  cases moves with
  | @goes core q a alters turn =>
    have rest : (core.endProcess pid).total f = (c.endProcess pid).total f := by
      simp only [total, endProcess, alters.processes]
    have less := turn.work_lt
    have bound := bounded pid q
    rw [total_setProcess (counted.alters alters) (alters.processes ▸ member), rest]
    omega
  | @ends core a alters turn =>
    have rest : (core.endProcess pid).total f = (c.endProcess pid).total f := by
      simp only [total, endProcess, alters.processes]
    omega
  | @begins f' firing creating _ =>
    have work : p.work = 24 := by simp [firing, Process.work, creating, FiringPhase.work]
    have added : ((c.endProcess pid).addTask f'.layer f'.key).2.total f =
        (c.endProcess pid).total f + f (c.next + 1) (.run { task := c.next, key := f'.key, layer := f'.layer }) := by
      simp [total, addTask, spawn, endProcess]
    have bound : f (c.next + 1) (.run { task := c.next, key := f'.key, layer := f'.layer }) ≤ 23 := bounded _ _
    omega

end Totals

end Cache

/-- Whether a run in this phase is going to end its task, unless there is a newer one. -/
def RunPhase.isPending : RunPhase → Bool
  | .joining | .requesting | .waiting _ | .starting | .compiling | .asking _ | .writing _ | .installing | .replacing _
  | .finishing | .cleaning _ | .failing _ => true
  | _ => false

theorem RunPhase.Passes.isPending (passes : phase.Passes phase')
    (pending : phase.isPending = true) : phase'.isPending = true := by
  cases passes <;> first | rfl | cases pending

/-- A run that is going to end its task goes on to do so, or has done it. -/
theorem Run.Turn.pursues {r : Run} {t : Task} (turn : r.Turn c pid a next a') (found : a.task = some t)
    (latest : t.id = r.task) (same : a'.task = some t) (pending : r.phase.isPending = true) : t.status.isFinal = true ∨
      ∃ r', next = some (.run r') ∧ r'.key = r.key ∧ r'.task = r.task ∧ r'.phase.isPending = true := by
  have own : a.IsLatest r.task := ⟨t, found, latest⟩
  cases turn with
  | pass passes => exact .inr ⟨_, rfl, rfl, rfl, passes.isPending pending⟩
  | join _ _ | acquire _ _ _ | start _ _ _ | install _ _ => exact .inr ⟨_, rfl, rfl, rfl, rfl⟩
  | finish _ _ _ | fail _ _ _ =>
    rw [← Option.some.inj same]
    exact .inl rfl
  | yield _ other => exact absurd own other
  | endRetry here _ | endRefresh here | pause here | keep here | confirm here _ | undo here | release here | part here
  | stay here _ | miss here _ | forget here _ =>
    rw [here] at pending
    cases pending

/-- A task comes from one with the same number: it is over, or its run has just started it. -/
theorem Process.Turn.task_of_some {p : Process} {t' : Task}
    (turn : p.Turn c pid a next a') (found : a'.task = some t') : a.task = some t' ∨
      ∃ r t, p = .run r ∧ a.task = some t ∧ t'.id = r.task ∧ t'.key = t.key ∧
        (t'.status.isFinal = true ∨ next = some (.run { r with phase := .compiling })) := by
  cases turn with
  | @run r _ _ turn =>
    cases turn with
    | start _ old same =>
      cases found
      exact .inr ⟨r, _, rfl, old, same, rfl, .inr rfl⟩
    | finish _ old same | fail _ old same =>
      cases found
      exact .inr ⟨r, _, rfl, old, same, rfl, .inl rfl⟩
    | @keep kind | @undo kind =>
      cases kind <;> exact .inl found
    | forget _ forgets => rcases forgets with rfl | ⟨_, _, _, rfl⟩ <;> exact .inl found
    | _ => exact .inl found
  | firing turn => cases turn <;> exact .inl found
  | removal turn =>
    cases turn with
    | eraseTask _ => cases found
    | forget _ forgets => rcases forgets with rfl | ⟨_, _, _, rfl⟩ <;> exact .inl found
    | _ => exact .inl found

namespace Cache

section Pursuit

variable {settings : CacheSettings} {c c' : Cache} {pid : Nat} {p : Process} {key : TableName} {action : Action}

/-- Some run is going to end a task of an object. -/
def Pursues (c : Cache) (key : TableName) (id : Nat) : Prop :=
  ∃ pid r, (pid, .run r) ∈ c.processes ∧ r.key = key ∧ r.task = id ∧ r.phase.isPending = true

/-- Each object has its own task, and a task that is not over is pursued. -/
def Pursued (c : Cache) : Prop :=
  ∀ key t, (c.affairs key).task = some t → t.key = key ∧ (t.status.isFinal = true ∨ c.Pursues key t.id)

theorem Pursues.mono {id : Nat} (pursues : c.Pursues key id)
    (kept : ∀ pid r, r.key = key → (pid, .run r) ∈ c.processes → (pid, .run r) ∈ c'.processes) : c'.Pursues key id := by
  obtain ⟨pid, r, member, own, same, pending⟩ := pursues
  exact ⟨pid, r, kept pid r own member, own, same, pending⟩

theorem Pursued.mono (inv : c.Pursued) (tasks : ∀ key, (c'.affairs key).task = (c.affairs key).task)
    (kept : ∀ pid r, (pid, .run r) ∈ c.processes → (pid, .run r) ∈ c'.processes) : c'.Pursued := by
  intro key t found
  rw [tasks] at found
  obtain ⟨own, ends⟩ := inv key t found
  exact ⟨own, ends.imp_right fun pursues => pursues.mono fun pid r _ => kept pid r⟩

theorem Pursued.addTask (inv : c.Pursued) (layer : Layer) (key : TableName) : (c.addTask layer key).2.Pursued := by
  intro other t found
  by_cases same : other = key
  · subst same
    have new : some ({ id := c.next, key := other } : Task) = some t := (KeyMap.get?_set_self).symm.trans found
    cases new
    exact ⟨rfl, .inr ⟨_, _, mem_append_right _ (mem_singleton_self _), rfl, rfl, rfl⟩⟩
  · rw [addTask_elsewhere layer same] at found
    obtain ⟨own, ends⟩ := inv other t found
    exact ⟨own, ends.imp_right fun pursues => pursues.mono fun _ _ _ old => mem_append_left _ old⟩

theorem Pursued.moves (inv : c.Pursued) (counted : Counted c) (member : (pid, p) ∈ c.processes) (moves : Moves c pid p c') :
    c'.Pursued := by
  rcases moves.turns member with ⟨f, rfl, _, rfl⟩ | ⟨next, turn, _, processes⟩
  · have rest : (c.endProcess pid).Pursued := by
      refine inv.mono (fun _ => rfl) fun other r old => mem_endProcess.mpr ⟨?_, old⟩
      rintro rfl
      cases counted.process_eq old member
    exact rest.addTask _ _
  · intro key t found
    by_cases same : p.key = key
    · subst same
      rcases turn.task_of_some found with old | ⟨r, t₀, rfl, old, named, own, ends⟩
      · obtain ⟨own, ends⟩ := inv _ t old
        refine ⟨own, ends.elim .inl ?_⟩
        rintro ⟨other, r, here, about, named, pending⟩
        by_cases stays : other = pid
        · subst stays
          cases counted.process_eq member here
          cases turn with
          | run turn =>
            refine (turn.pursues old named.symm found pending).imp_right ?_
            rintro ⟨r', rfl, about', named', pending'⟩
            exact ⟨other, r', (processes _ _).mpr (.inr ⟨rfl, rfl⟩), about', named'.trans named, pending'⟩
        · exact .inr ⟨other, r, (processes _ _).mpr (.inl ⟨stays, here⟩), about, named, pending⟩
      · refine ⟨own.trans (inv _ t₀ old).1, ends.imp_right ?_⟩
        rintro rfl
        exact ⟨pid, _, (processes _ _).mpr (.inr ⟨rfl, rfl⟩), rfl, named.symm, rfl⟩
    · obtain ⟨tasks, kept⟩ := moves.elsewhere counted member same
      rw [tasks] at found
      obtain ⟨own, ends⟩ := inv key t found
      exact ⟨own, ends.imp_right fun pursues => pursues.mono fun _ r about old => (kept _ (.run r) about).mpr old⟩

theorem Pursued.acts (inv : c.Pursued) (counted : Counted c) (acts : Acts c action c') : c'.Pursued := by
  cases acts with
  | create _ => exact inv.addTask _ _
  | remove | goOff _ => exact inv.mono (fun _ => rfl) fun _ _ old => mem_append_left _ old
  | moves _ member moves => exact inv.moves counted member moves
  | stop | idle _ => exact inv.mono (fun _ => rfl) fun _ _ => id

/-- What holds of every history from a cache without tasks and processes. -/
structure WellRun (c : Cache) : Prop where
  counted : Counted c
  one : OneLock c
  pursued : Pursued c

theorem WellRun.acts (inv : WellRun c) (acts : Acts c action c') : WellRun c' :=
  ⟨inv.counted.acts acts, inv.one.acts acts, inv.pursued.acts inv.counted acts⟩

theorem WellRun.setClock (inv : WellRun c) (time : Nat) : WellRun { c with now := time } := by
  have idle : Acts c (.setClock time) { c with now := time } := .idle rfl
  exact inv.acts idle

theorem wellRun_empty : WellRun {} where
  counted := ⟨.nil, fun _ _ member => nomatch member⟩
  one := ⟨fun _ _ member => (nomatch member), fun _ _ _ _ member => (nomatch member)⟩
  pursued _ _ found := nomatch found

theorem WellRun.history {actions : List Action} (inv : WellRun c) (reached : c.history settings actions = some c') :
    WellRun c' :=
  history_preserves (P := WellRun) (fun _ _ _ inv acted => inv.acts (acts_of_act acted)) inv reached

end Pursuit

end Cache

namespace Simulation

variable {s s' : Simulation} {pid n : Nat} {p : Process}

/-- A step of a process: the cache changes, or the run comes to the closed gate. -/
inductive Goes (s : Simulation) (pid : Nat) (s' : Simulation) : Prop
  | moves {p : Process} : (pid, p) ∈ s.cache.processes → p.isAsking = false ∨ s.waiting.any (·.1 == pid) = false →
      s.cache.Moves pid p s'.cache → s'.waiting = s.waiting → Goes s pid s'
  | waits {p : Process} {sql : String} : (pid, p) ∈ s.cache.processes → p.isAsking = true →
      s.waiting.any (·.1 == pid) = false → s'.cache = s.cache → s'.waiting = s.waiting ++ [(pid, sql)] → Goes s pid s'

theorem stepProcess_goes (counted : s.cache.Counted) (stepped : s.stepProcess pid = some s') : s.Goes pid s' := by
  unfold stepProcess at stepped
  split at stepped
  · rename_i task key layer lock sql found
    split at stepped
    · cases stepped
    · rename_i free
      rw [Bool.not_eq_true] at free
      cases stepped
      have member := Cache.mem_of_process? found
      unfold arrive
      dsimp only
      split
      · rename_i source passed
        refine .moves member (.inr free) ?_ rfl
        have next : s.cache.answer pid (source.answer sql) =
            s.cache.setProcess pid (.run ⟨task, key, layer, lock, .writing (source.answer sql)⟩) := by
          unfold Cache.answer
          simp only [found]
        rw [next]
        exact .goes (s.cache.alters_nothing key) (.run (.pass (.answer sql _)))
      · exact .waits member rfl free rfl rfl
  · rename_i other
    obtain ⟨c, proceeds, rfl⟩ := Option.map_eq_some_iff.mp stepped
    obtain ⟨p, member, steps⟩ := Cache.step_steps proceeds
    refine .moves member (.inl ?_) steps.moves rfl
    have found := Cache.process?_of_mem counted.pids member
    rw [← Bool.not_eq_true]
    intro asking
    unfold Process.isAsking at asking
    split at asking
    · exact other _ _ _ _ _ found
    · cases asking

theorem Goes.counted (goes : s.Goes pid s') (counted : s.cache.Counted) : s'.cache.Counted := by
  cases goes with
  | moves _ _ moves _ => exact counted.moves moves
  | waits _ _ _ same _ => exact same ▸ counted

section Rest

variable {c : Cache}

/-- The steps that a process has left before it waits: a run at the gate can do no more than wait. -/
def stepsLeft (waiting : List (Nat × String)) (pid : Nat) (p : Process) : Nat :=
  if p.isAsking && waiting.any (·.1 == pid) then p.work - 1 else p.work

theorem stepsLeft_le (waiting : List (Nat × String)) (pid : Nat) (p : Process) : stepsLeft waiting pid p ≤ p.work := by
  unfold stepsLeft
  split <;> omega

theorem stepsLeft_pos (waiting : List (Nat × String)) (pid : Nat) (p : Process) : 0 < stepsLeft waiting pid p := by
  unfold stepsLeft
  split
  · rename_i waits
    have asking : p.isAsking = true := (Bool.and_eq_true_iff.mp waits).1
    unfold Process.isAsking at asking
    split at asking
    · exact Nat.succ_pos _
    · cases asking
  · exact p.work_pos

theorem stepsLeft_eq {waiting : List (Nat × String)} (free : p.isAsking = false ∨ waiting.any (·.1 == pid) = false) :
    stepsLeft waiting pid p = p.work := by
  rcases free with here | here <;> simp [stepsLeft, here]

theorem Goes.total_lt (goes : s.Goes pid s') (counted : s.cache.Counted) :
    s'.cache.total (stepsLeft s'.waiting) < s.cache.total (stepsLeft s.waiting) := by
  cases goes with
  | moves member free moves same =>
    rw [same]
    exact moves.total_lt counted member (stepsLeft_le _) (stepsLeft_eq free)
  | @waits p sql member asking free same added =>
    have others : (s.cache.endProcess pid).total (stepsLeft s'.waiting) =
        (s.cache.endProcess pid).total (stepsLeft s.waiting) := by
      unfold Cache.total
      refine congrArg sum (map_congr_left ?_)
      rintro ⟨other, q⟩ here
      have different : pid ≠ other := fun same => (Cache.mem_endProcess.mp here).1 same.symm
      have same : s'.waiting.any (·.1 == other) = s.waiting.any (·.1 == other) := by simp [added, different]
      dsimp only
      rw [stepsLeft, stepsLeft, same]
    have own : stepsLeft s'.waiting pid p = p.work - 1 := by simp [stepsLeft, added, asking]
    have positive := p.work_pos
    rw [same, Cache.total_eq counted member, Cache.total_eq counted member, others, own, stepsLeft_eq (.inr free)]
    omega

/-- No process can go on. -/
def IsStuck (s : Simulation) : Prop := ∀ pid p, (pid, p) ∈ s.cache.processes → s.stepProcess pid = none

theorem isStuck_of_step? (stuck : s.step? = none) : s.IsStuck := fun pid p member =>
  findSome?_eq_none_iff.mp stuck (pid, p) member

theorem steps_isStuck (counted : s.cache.Counted) (enough : s.cache.total (stepsLeft s.waiting) ≤ n) :
    (steps n s).IsStuck := by
  induction n generalizing s with
  | zero =>
    intro pid p member
    rw [Cache.total_eq counted member] at enough
    have positive := stepsLeft_pos s.waiting pid p
    omega
  | succ n ih =>
    unfold steps
    cases stepped : s.step? with
    | none => exact isStuck_of_step? stepped
    | some next =>
      obtain ⟨entry, _, goes⟩ := exists_of_findSome?_eq_some stepped
      have goes := stepProcess_goes counted goes
      have less := goes.total_lt counted
      exact ih (goes.counted counted) (by omega)

theorem settle_isStuck (counted : s.cache.Counted) : s.settle.IsStuck := by
  refine steps_isStuck counted ?_
  have bounded : ∀ entries : List (Nat × Process), (entries.map fun (pid, p) => stepsLeft s.waiting pid p).sum ≤
      (entries.map (·.2.work)).foldr (· + ·) 0 := by
    intro entries
    induction entries with
    | nil => exact Nat.le_refl _
    | cons entry entries ih =>
      rw [map_cons, map_cons, sum_cons, foldr_cons]
      exact Nat.add_le_add (stepsLeft_le _ _ _) ih
  exact bounded s.cache.processes

theorem stepFiring_ne_none {f : Firing} : c.stepFiring pid f ≠ none := by
  unfold Cache.stepFiring
  dsimp only
  repeat' split
  all_goals exact Option.some_ne_none _

theorem stepRemoval_ne_none {r : Removal} : c.stepRemoval pid r ≠ none := by
  unfold Cache.stepRemoval
  dsimp only
  repeat' split
  all_goals exact Option.some_ne_none _

/-- What cannot go on is a run that waits, at the gate or behind another run. -/
theorem IsStuck.waits (stuck : s.IsStuck) (counted : s.cache.Counted) (member : (pid, p) ∈ s.cache.processes) :
    ∃ r, p = .run r ∧ ((∃ sql, r.phase = .asking sql ∧ s.waiting.any (·.1 == pid) = true) ∨
      ∃ ticket, r.phase = .waiting ticket ∧ ∀ lock, r.lock = some lock →
        ∃ other q, (other, q) ∈ s.cache.processes ∧ Cache.precedes lock ticket q = true) := by
  have stays := stuck pid p member
  have found := Cache.process?_of_mem counted.pids member
  unfold stepProcess at stays
  rw [found] at stays
  split at stays
  · rename_i task key layer lock sql same
    cases same
    refine ⟨_, rfl, .inl ⟨sql, rfl, ?_⟩⟩
    split at stays
    · assumption
    · cases stays
  · rename_i other
    have blocked : s.cache.step s.settings pid = none := Option.map_eq_none_iff.mp stays
    unfold Cache.step at blocked
    rw [found] at blocked
    cases p with
    | firing f => exact absurd blocked stepFiring_ne_none
    | removal r => exact absurd blocked stepRemoval_ne_none
    | run r =>
      refine ⟨r, rfl, .inr ?_⟩
      rcases Cache.phase_of_stepRun_none blocked with ⟨sql, asking⟩ | ⟨ticket, waiting⟩
      · obtain ⟨task, key, layer, lock, phase⟩ := r
        cases asking
        exact absurd rfl (other task key layer lock sql)
      · refine ⟨ticket, waiting, fun lock held => ?_⟩
        simp only [Cache.stepRun, waiting, held] at blocked
        split at blocked
        · rename_i first
          obtain ⟨⟨other, q⟩, here, precedes⟩ := any_eq_true.mp first
          exact ⟨other, q, here, (Bool.and_eq_true_iff.mp precedes).2⟩
        · cases blocked

/-- Runs do not wait for each other in a circle: if nobody is at the gate, nothing is left. -/
theorem IsStuck.idle (stuck : s.IsStuck) (counted : s.cache.Counted) (one : s.cache.OneLock) (free : s.waiting = []) :
    s.cache.processes = [] := by
  have queued : ∀ pid p, (pid, p) ∈ s.cache.processes → ∃ r ticket, p = .run r ∧ r.phase = .waiting ticket ∧
      ∃ lock, ∃ other q, (other, q) ∈ s.cache.processes ∧ Cache.precedes lock ticket q = true := by
    intro pid p member
    obtain ⟨r, rfl, ⟨_, _, waits⟩ | ⟨ticket, waiting, first⟩⟩ := stuck.waits counted member
    · rw [free] at waits
      cases waits
    · have share : (Process.run r).needsShare = true := by simp [Process.needsShare, waiting, RunPhase.hasShare]
      obtain ⟨lock, held⟩ := Option.ne_none_iff_exists'.mp ((one.shares pid _ member).taken share)
      exact ⟨r, ticket, rfl, waiting, lock, first lock held⟩
  -- The run with the smallest ticket would wait for one with a smaller one.
  have nobody : ∀ ticket pid r, (pid, .run r) ∈ s.cache.processes → r.phase ≠ .waiting ticket := by
    intro ticket
    induction ticket using Nat.strongRecOn with
    | ind ticket ih =>
      intro pid r member waiting
      obtain ⟨_, _, ⟨⟩, same, lock, other, q, here, precedes⟩ := queued pid _ member
      obtain ⟨r', earlier, rfl, waiting', _⟩ := queued other q here
      cases waiting.symm.trans same
      simp only [Cache.precedes, waiting', Bool.and_eq_true, decide_eq_true_eq] at precedes
      exact ih earlier precedes.2 other r' here waiting'
  rw [eq_nil_iff_forall_not_mem]
  rintro ⟨pid, p⟩ member
  obtain ⟨r, ticket, rfl, waiting, _⟩ := queued pid p member
  exact nobody ticket pid r member waiting

end Rest

end Simulation

end SemanticLayer
