import SemanticLayer.Proofs.Ownership

/-! # One run at a time

The lock of an object is made when somebody asks for it and forgotten when the object is gone and nobody has
a share of it. A share keeps the lock from being forgotten, so whoever has one has a share of the lock that
the object has now, and two runs of an object never have two different locks. A run that goes on has waited
until no other run had the lock.
-/

namespace SemanticLayer

variable {other : Nat}

/-- Whether a run in this phase has a share of the lock of its object. -/
def RunPhase.hasShare : RunPhase → Bool
  | .joining | .looking | .forgetting => false
  | _ => true

namespace Process

variable {a : Affairs} {p : Process}

def needsShare : Process → Bool
  | .run r => r.phase.hasShare
  | .firing _ | .removal _ => false

def hasLock : Process → Bool
  | .run r => r.phase.hasLock
  | .firing _ | .removal _ => false

/-- The shares of a process are shares of the lock that its object has now. -/
structure Shares (a : Affairs) (p : Process) : Prop where
  current : ∀ lock, Cache.shareOf p = some lock → a.lock = some lock
  taken : p.needsShare = true → Cache.shareOf p ≠ none

theorem Shares.of_none (none : Cache.shareOf p = none) (free : p.needsShare = false) : p.Shares a := by
  constructor
  · intro lock held
    rw [none] at held
    cases held
  · intro needed
    rw [free] at needed
    cases needed

theorem Shares.mono {a' : Affairs} (shares : p.Shares a) (lock : a'.lock = a.lock) : p.Shares a' where
  current held share := lock.trans (shares.current held share)
  taken := shares.taken

end Process

section Turns

variable {c : Cache} {pid : Nat} {a a' : Affairs} {phase phase' : RunPhase} {lock : Nat} {next : Option Process}

theorem RunPhase.Passes.hasLock (passes : phase.Passes phase') :
    phase'.hasLock = phase.hasLock ∧ phase.hasShare = true := by
  cases passes <;> exact ⟨rfl, rfl⟩

theorem RunPhase.Yields.hasLock (yields : phase.Yields phase') : phase.hasLock = true ∧ phase.hasShare = true := by
  cases yields <;> exact ⟨rfl, rfl⟩

/-- How the lock of an object changes while a process takes a step. -/
def Affairs.LockChanges (c : Cache) (a a' : Affairs) : Prop :=
  a'.lock = a.lock ∨ a.lock = none ∨ ∃ lock, a.lock = some lock ∧ c.isShared lock = false

theorem Affairs.setTimer_lock (timer : Option Nat) (kind : TimerKind) : (a.setTimer timer kind).lock = a.lock := by
  cases kind <;> rfl

theorem Cache.ForgetsLock.lockChanges (forgets : c.ForgetsLock a a') : a.LockChanges c a' := by
  rcases forgets with rfl | ⟨lock, found, free, rfl⟩
  · exact .inl rfl
  · exact .inr (.inr ⟨lock, found, free⟩)

/-- To join a lock is to take the one there is, or to make one where there is none. -/
theorem Affairs.lockChanges_join (found : a.lock = some lock ∨ a.lock = none) :
    a.LockChanges c { a with lock := some lock } := by
  rcases found with found | absent
  · exact .inl found.symm
  · exact .inr (.inl absent)

theorem Run.Turn.lockChanges {r : Run} (turn : r.Turn c pid a next a') : a.LockChanges c a' := by
  cases turn with
  | join _ found => exact Affairs.lockChanges_join found
  | forget _ forgets => exact forgets.lockChanges
  | keep | undo => exact .inl (Affairs.setTimer_lock _ _)
  | _ => exact .inl rfl

theorem Firing.Turn.lockChanges {f : Firing} (turn : f.Turn c a next a') : a.LockChanges c a' := by
  cases turn with
  | join _ found => exact Affairs.lockChanges_join found
  | _ => exact .inl rfl

theorem Removal.Turn.lockChanges {r : Removal} (turn : r.Turn c a next a') : a.LockChanges c a' := by
  cases turn with
  | forget _ forgets => exact forgets.lockChanges
  | _ => exact .inl rfl

namespace Process

variable {p q : Process} {next : Option Process}

theorem Turn.lockChanges (turn : p.Turn c pid a next a') : a.LockChanges c a' := by
  cases turn with
  | run turn => exact turn.lockChanges
  | firing turn => exact turn.lockChanges
  | removal turn => exact turn.lockChanges

/-- A step of one process leaves the shares of all others current. -/
theorem Shares.keeps (shares : q.Shares a) (member : (other, q) ∈ c.processes)
    (changes : a.LockChanges c a') : q.Shares a' := by
  refine ⟨fun lock share => ?_, shares.taken⟩
  have found := shares.current lock share
  rcases changes with same | absent | ⟨lock', found', free⟩
  · exact same.trans found
  · rw [absent] at found
    cases found
  · -- The lock would have been forgotten although this process has a share of it.
    rw [found] at found'
    cases found'
    have shared : c.isShared lock = true := List.any_eq_true.mpr ⟨(other, q), member, by simp [share]⟩
    rw [free] at shared
    cases shared

/-- A process that goes on has a share of the lock that its object then has. -/
theorem Turn.shares (turn : p.Turn c pid a (some q) a') (shares : p.Shares a) : q.Shares a' := by
  cases turn with
  | @run r _ _ turn =>
    have kept : ∀ phase now, now.lock = a.lock → r.phase.hasShare = true →
        (Process.run { r with phase }).Shares now := by
      intro phase now same share
      exact ⟨fun lock held => same.trans (shares.current lock held), fun _ => shares.taken share⟩
    cases turn with
    | join _ _ => exact ⟨fun lock held => held, fun _ => nofun⟩
    | pass passes => exact kept _ _ rfl passes.hasLock.2
    | yield yields _ => exact kept _ _ rfl yields.hasLock.2
    | keep here | undo here => exact kept _ _ (Affairs.setTimer_lock _ _) (by rw [here]; rfl)
    | acquire here _ _ | start here _ _ | install here _ | finish here _ _ | fail here _ _ | endRetry here _
    | endRefresh here | pause here | confirm here _ | release here => exact kept _ _ rfl (by rw [here]; rfl)
    | part _ => exact .of_none rfl rfl
    | miss _ _ => exact ⟨shares.current, nofun⟩
  | firing turn =>
    cases turn with
    | seen _ _ phase => rcases phase with rfl | rfl <;> exact .of_none rfl rfl
    | join _ _ => exact ⟨fun lock held => held, nofun⟩
    | probe _ _ => exact .of_none rfl rfl
  | removal turn => cases turn <;> exact .of_none rfl rfl

/-- A run that comes to have the lock has it already, or finds that no other run has it. -/
theorem Turn.acquires (turn : p.Turn c pid a (some q) a') (has : q.hasLock = true) : p.hasLock = true ∨
    ∃ ticket lock, Cache.shareOf p = some lock ∧
      ∀ other p', (other, p') ∈ c.processes → other ≠ pid → Cache.precedes lock ticket p' = false := by
  cases turn with
  | @run r _ _ turn =>
    have had : ∀ phase, r.phase = phase → phase.hasLock = true → (Process.run r).hasLock = true := by
      intro phase here has
      change r.phase.hasLock = true
      rw [here]
      exact has
    cases turn with
    | acquire _ share first => exact .inr ⟨_, _, share, first⟩
    | pass passes => exact .inl (passes.hasLock.1.symm.trans has)
    | yield yields _ => exact .inl yields.hasLock.1
    | start here _ _ | install here _ | finish here _ _ | fail here _ _ | endRetry here _ | endRefresh here
    | pause here | keep here | confirm here _ | undo here => exact .inl (had _ here rfl)
    | join _ _ | release _ | part _ | miss _ _ => cases has
  | firing turn => cases turn <;> cases has
  | removal turn => cases turn <;> cases has

theorem Shares.of_hasLock (shares : p.Shares a) (has : p.hasLock = true) :
    ∃ lock, Cache.shareOf p = some lock ∧ a.lock = some lock := by
  have needs : p.needsShare = true := by
    cases p with
    | run r =>
      change r.phase.hasShare = true
      change r.phase.hasLock = true at has
      cases phase : r.phase <;> rw [phase] at has <;> first | rfl | cases has
    | firing f => cases has
    | removal r => cases has
  obtain ⟨lock, share⟩ := Option.ne_none_iff_exists'.mp (shares.taken needs)
  exact ⟨lock, share, shares.current lock share⟩

/-- A run that has a lock comes before everybody who waits for it. -/
theorem precedes_of_hasLock (has : p.hasLock = true) (share : Cache.shareOf p = some lock)
    (ticket : Nat) : Cache.precedes lock ticket p = true := by
  cases p with
  | run r =>
    change r.phase.hasLock = true at has
    change r.lock = some lock at share
    unfold Cache.precedes
    simp only [share, beq_self_eq_true, Bool.true_and]
    split
    · rename_i waits
      rw [waits] at has
      cases has
    · exact has
  | firing f => cases has
  | removal r => cases has

end Process

end Turns

namespace Cache

variable {settings : CacheSettings} {c c' core : Cache} {pid : Nat} {p : Process} {action : Action}

/-- All shares are current, and no two runs of an object have its lock. -/
structure OneLock (c : Cache) : Prop where
  shares : ∀ pid p, (pid, p) ∈ c.processes → p.Shares (c.affairs p.key)
  alone : ∀ pid p pid' p', (pid, p) ∈ c.processes → (pid', p') ∈ c.processes → p.key = p'.key →
    p.hasLock = true → p'.hasLock = true → pid = pid'

theorem OneLock.of_same (inv : OneLock c) (locks : c'.locks = c.locks) (processes : c'.processes = c.processes) :
    OneLock c' := by
  constructor
  · intro pid p member
    rw [processes] at member
    refine (inv.shares pid p member).mono ?_
    simp only [affairs, locks]
  · rw [processes]
    exact inv.alone

theorem OneLock.endProcess (inv : OneLock c) (pid : Nat) : OneLock (c.endProcess pid) where
  shares other p member := inv.shares other p (mem_endProcess.mp member).2
  alone other p other' p' member member' :=
    inv.alone other p other' p' (mem_endProcess.mp member).2 (mem_endProcess.mp member').2

theorem OneLock.spawn (inv : OneLock c) {number : Nat} (locks : c'.locks = c.locks)
    (processes : c'.processes = c.processes ++ [(number, p)]) (share : shareOf p = none)
    (free : p.needsShare = false) (unlocked : p.hasLock = false) : OneLock c' := by
  have split : ∀ other q, (other, q) ∈ c'.processes → (other, q) ∈ c.processes ∨ q = p := by
    intro other q member
    rw [processes] at member
    rcases List.mem_append.mp member with old | last
    · exact .inl old
    · cases List.mem_singleton.mp last
      exact .inr rfl
  constructor
  · intro other q member
    rcases split other q member with old | rfl
    · refine (inv.shares other q old).mono ?_
      simp only [affairs, locks]
    · exact .of_none share free
  · intro other q other' q' member member' same has has'
    have known : ∀ number q, (number, q) ∈ c'.processes → q.hasLock = true → (number, q) ∈ c.processes := by
      intro number q member has
      rcases split number q member with old | rfl
      · exact old
      · rw [unlocked] at has
        cases has
    exact inv.alone other q other' q' (known other q member has) (known other' q' member' has') same has has'

theorem OneLock.addTask (inv : OneLock c) (layer : Layer) (key : TableName) : OneLock (c.addTask layer key).2 :=
  inv.spawn rfl rfl rfl rfl rfl

theorem OneLock.alters (inv : OneLock c) {a : Affairs} (alters : Alters c p.key a core)
    (changes : (c.affairs p.key).LockChanges c a) {q : Process} (member : (other, q) ∈ c.processes) :
    q.Shares (core.affairs q.key) := by
  have shares := inv.shares other q member
  by_cases same : q.key = p.key
  · rw [same] at shares ⊢
    rw [alters.own]
    exact shares.keeps member changes
  · rw [alters.others q.key same]
    exact shares

theorem OneLock.goes (inv : OneLock c) (member : (pid, p) ∈ c.processes) {q : Process} {a : Affairs}
    (alters : Alters c p.key a core) (turn : p.Turn c pid (c.affairs p.key) (some q) a) :
    OneLock (core.setProcess pid q) := by
  -- Of two runs that have the lock, at most one has just taken its step, and the other one had it before.
  have apart : ∀ other p', (other, p') ∈ c.processes → other ≠ pid → q.key = p'.key → q.hasLock = true →
      p'.hasLock = true → False := by
    intro other p' member' different same has has'
    rw [turn.key_eq] at same
    rcases turn.acquires has with had | ⟨ticket, lock, share, first⟩
    · exact different (inv.alone pid p other p' member member' same had has').symm
    · obtain ⟨lock', share', found⟩ := (inv.shares other p' member').of_hasLock has'
      rw [← same, (inv.shares pid p member).current lock share] at found
      cases found
      have precedes := Process.precedes_of_hasLock has' share' ticket
      rw [first other p' member' different] at precedes
      cases precedes
  constructor
  · intro other q' member'
    rcases mem_setProcess.mp member' with ⟨_, old⟩ | ⟨rfl, rfl, _⟩
    · rw [alters.processes] at old
      exact inv.alters alters turn.lockChanges old
    · change q'.Shares (core.affairs q'.key)
      rw [turn.key_eq, alters.own]
      exact turn.shares (inv.shares other p member)
  · intro other q' other' q'' member' member'' same has has'
    rcases mem_setProcess.mp member' with ⟨different, old⟩ | ⟨rfl, rfl, _⟩
    · rw [alters.processes] at old
      rcases mem_setProcess.mp member'' with ⟨_, old'⟩ | ⟨rfl, rfl, _⟩
      · rw [alters.processes] at old'
        exact inv.alone other q' other' q'' old old' same has has'
      · exact (apart other q' old different same.symm has' has).elim
    · rcases mem_setProcess.mp member'' with ⟨different, old'⟩ | ⟨rfl, rfl, _⟩
      · rw [alters.processes] at old'
        exact (apart other' q'' old' different same has has').elim
      · rfl

theorem OneLock.ends (inv : OneLock c) {a : Affairs} (alters : Alters c p.key a core)
    (changes : (c.affairs p.key).LockChanges c a) : OneLock (core.endProcess pid) := by
  have old : ∀ other q, (other, q) ∈ (core.endProcess pid).processes → (other, q) ∈ c.processes := by
    intro other q member
    rw [← alters.processes]
    exact (mem_endProcess.mp member).2
  constructor
  · intro other q member
    exact inv.alters alters changes (old other q member)
  · intro other q other' q' member member'
    exact inv.alone other q other' q' (old other q member) (old other' q' member')

theorem OneLock.moves (inv : OneLock c) (member : (pid, p) ∈ c.processes) (moves : Moves c pid p c') : OneLock c' := by
  cases moves with
  | goes alters turn => exact inv.goes member alters turn
  | ends alters turn => exact inv.ends alters turn.lockChanges
  | begins _ _ _ => exact (inv.endProcess pid).addTask _ _

theorem OneLock.acts (inv : OneLock c) (acts : Acts c action c') : OneLock c' := by
  cases acts with
  | create _ => exact inv.addTask _ _
  | remove | goOff _ => exact inv.spawn rfl rfl rfl rfl rfl
  | moves _ member moves => exact inv.moves member moves
  | stop | idle _ => exact inv.of_same rfl rfl

/-- In every history from a cache in which nothing goes on, whatever clients, timers and runs do: every share of
a lock is a share of the lock that the object has now, every run has one from where it asks for the lock to
where it gives it back, and of the runs of an object at most one has the lock. -/
theorem history_single_flight {start : Cache} (idle : start.processes = []) {actions : List Action}
    (reached : start.history settings actions = some c) :
    (∀ pid p lock, (pid, p) ∈ c.processes → shareOf p = some lock → c.locks.get? p.key = some lock) ∧
    (∀ pid r, (pid, .run r) ∈ c.processes → r.phase.hasShare = true →
      ∃ lock, r.lock = some lock ∧ c.locks.get? r.key = some lock) ∧
    (∀ pid r pid' r', (pid, .run r) ∈ c.processes → (pid', .run r') ∈ c.processes → r.key = r'.key →
      r.phase.hasLock = true → r'.phase.hasLock = true → pid = pid' ∧ r = r') := by
  have empty : ∀ pid p, (pid, p) ∉ start.processes := by simp [idle]
  have counted : Counted c := counted_of_history idle reached
  have one : OneLock c := by
    refine history_preserves (P := OneLock) (fun c action c' one acted => one.acts (acts_of_act acted)) ⟨?_, ?_⟩ reached
    · exact fun pid p member => (empty pid p member).elim
    · exact fun pid p _ _ member => (empty pid p member).elim
  refine ⟨fun pid p lock member => (one.shares pid p member).current lock, ?_, ?_⟩
  · intro pid r member share
    obtain ⟨lock, held⟩ := Option.ne_none_iff_exists'.mp ((one.shares pid _ member).taken share)
    exact ⟨lock, held, (one.shares pid _ member).current lock held⟩
  · intro pid r pid' r' member member' same has has'
    have number := one.alone pid _ pid' _ member member' same has has'
    subst number
    have process := counted.process_eq member member'
    exact ⟨rfl, Process.run.inj process⟩

def run? (c : Cache) (pid : Nat) : Option Run := (c.process? pid).bind Process.run?

theorem mem_of_run? {r : Run} (found : c.run? pid = some r) : (pid, .run r) ∈ c.processes := by
  obtain ⟨p, process, run⟩ := Option.bind_eq_some_iff.mp found
  cases p with
  | run r' =>
    cases run
    exact mem_of_process? process
  | firing | removal => cases run

/-- The orders are removed and asked for again while a run waits for the data source. The new run waits for the
lock of the old one. -/
theorem orders_awaited_single_flight : ∃ c r r', history ⟨.sqlite, 100, 0⟩ {}
        ([.create copiedOrders ⟨"mdl", "test", "Orders"⟩] ++ List.replicate 5 (.proceed 2) ++
          [.remove ⟨"mdl", "test", "Orders"⟩] ++ List.replicate 6 (.proceed 5) ++
          [.create copiedOrders ⟨"mdl", "test", "Orders"⟩] ++ List.replicate 2 (.proceed 7)) = some c ∧
      c.run? 2 = some r ∧ c.run? 7 = some r' ∧ r.task = 1 ∧ r'.task = 6 ∧ r.key = r'.key ∧
      r.phase.hasLock = true ∧ r'.phase.hasShare = true ∧ r.lock = r'.lock ∧ r.lock = c.locks.get? r.key ∧
      ∀ pid other, (pid, .run other) ∈ c.processes → r.key = other.key → other.phase.hasLock = true → other = r := by
  let orders : TableName := ⟨"mdl", "test", "Orders"⟩
  let create : List Action := [.create copiedOrders orders]
  let proceed (times pid : Nat) : List Action := List.replicate times (.proceed pid)
  let actions := create ++ proceed 5 2 ++ [.remove orders] ++ proceed 6 5 ++ create ++ proceed 2 7
  have run : (history ⟨.sqlite, 100, 0⟩ {} actions).map (fun c => [2, 7].map fun pid =>
      (c.run? pid).map fun r => (r.task, r.key, r.phase.hasShare, r.phase.hasLock)) =
      some [some (1, orders, true, true), some (6, orders, true, false)] := by
    decide +kernel
  obtain ⟨c, reached, same⟩ := Option.map_eq_some_iff.mp run
  simp only [List.map_cons, List.map_nil, List.cons.injEq, and_true, Option.map_eq_some_iff, Prod.mk.injEq] at same
  obtain ⟨⟨r, here, task, key, share, has⟩, r', here', task', key', share', _⟩ := same
  obtain ⟨_, shares, alone⟩ := history_single_flight rfl reached
  obtain ⟨lock, held, current⟩ := shares 2 r (mem_of_run? here) share
  obtain ⟨lock', held', current'⟩ := shares 7 r' (mem_of_run? here') share'
  refine ⟨c, r, r', reached, here, here', task, task', key.trans key'.symm, has, share', ?_, ?_, ?_⟩
  · rw [held, held', ← current, ← current', key, key']
  · rw [held, current]
  · intro pid other member sameKey has'
    exact (alone 2 r pid other (mem_of_run? here) member sameKey has has').2.symm

end Cache

end SemanticLayer
