import SemanticLayer.Cache.KeyMap
import SemanticLayer.Cache.Task

/-! # The state of the cache

The cache keeps, for each object, its latest task, the table that answers its queries, and timers that
will copy it again. Runs, timers that have just gone off, and removals are processes that share this
state. A process does one access of a shared map, or one operation of the local store, at a time.
-/

namespace SemanticLayer

/-- Which of its timers an object has: one that comes again and again, or one for a new attempt. -/
inductive TimerKind where
  | refresh
  | retry
  deriving Repr, DecidableEq

/-- A timer that has not been cancelled. -/
structure Timer where
  id : Nat
  kind : TimerKind
  key : TableName
  layer : Layer
  due : Nat
  /-- After how long the timer goes off again; a retry does not. -/
  period : Nat

/-- How far a run is; each phase names what the run does next. -/
inductive RunPhase where
  /-- Takes a share of the object's lock. -/
  | joining
  | requesting
  /-- Waits for the lock; the smaller ticket comes first. -/
  | waiting (ticket : Nat)
  /-- Marks its task as running, unless there is a newer one. -/
  | starting
  /-- Compiles the SQL of the object. -/
  | compiling
  /-- Waits for the data source. -/
  | asking (sql : String)
  /-- Writes the rows into a new table. -/
  | writing (answer : Except SourceError Records)
  /-- Makes the new table the one of the object, unless there is a newer task. -/
  | installing
  /-- Drops the table that the object had before. -/
  | replacing (previous : Option String)
  | finishing
  /-- Cancels the retry of the object. -/
  | endingRetry
  /-- Cancels the refresh of the object, which needs none. -/
  | endingRefresh
  /-- Starts a timer. -/
  | arming (kind : TimerKind) (period : Nat)
  | keeping (kind : TimerKind) (timer : Nat)
  /-- Drops its own table, as there is a newer task. -/
  | discarding
  /-- Drops its own table, as it has failed. -/
  | cleaning (e : CacheError)
  /-- Marks its task as failed. -/
  | failing (e : CacheError)
  /-- Cancels the refresh of the object, which has failed. -/
  | pausingRefresh
  /-- Looks whether its task is still the latest, having set a timer. -/
  | checking (kind : TimerKind)
  | undoing (kind : TimerKind)
  /-- Gives the lock back. -/
  | leaving
  /-- Gives its share of the lock back. -/
  | parting
  /-- Looks whether the object is gone. -/
  | looking
  /-- Forgets the lock of an object that is gone, if nobody has a share. -/
  | forgetting

structure Run where
  task : Nat
  key : TableName
  layer : Layer
  lock : Option Nat := none
  phase : RunPhase := .joining

def RunPhase.hasLock : RunPhase → Bool
  | .joining | .requesting | .waiting _ | .parting | .looking | .forgetting => false
  | _ => true

/-- How far a timer that has gone off is. -/
inductive FiringPhase where
  /-- Looks whether the object is still there. -/
  | looking
  /-- Takes a share of the object's lock. -/
  | joining
  /-- Looks whether a run has or awaits the lock, and gives its share back. -/
  | probing (lock : Nat)
  | creating
  deriving Repr, DecidableEq

/-- A timer that has gone off. -/
structure Firing where
  kind : TimerKind
  key : TableName
  layer : Layer
  phase : FiringPhase := .looking

/-- How far a removal is. -/
inductive RemovalPhase where
  | endingRefresh
  | endingRetry
  | erasingTask
  | looking
  | forgetting
  | unmapping
  | dropping (table : String)
  deriving Repr, DecidableEq

structure Removal where
  key : TableName
  phase : RemovalPhase := .endingRefresh

inductive Process where
  | run (r : Run)
  | firing (f : Firing)
  | removal (r : Removal)

structure Cache where
  tasks : KeyMap Task := []
  /-- The table that answers queries of an object. -/
  tables : KeyMap String := []
  /-- The numbers of the refresh timers. -/
  refreshes : KeyMap Nat := []
  retries : KeyMap Nat := []
  /-- The numbers of the locks. -/
  locks : KeyMap Nat := []
  store : Store := {}
  timers : List Timer := []
  processes : List (Nat × Process) := []
  /-- The next number that has not been given away. -/
  next : Nat := 1
  now : Nat := 0

structure CacheSettings where
  backend : Backend
  /-- The most bytes that a table may hold. -/
  sizeLimit : Nat
  /-- After how many nanoseconds a failed task is tried again. -/
  retryDelay : Nat
  deriving Repr, DecidableEq

namespace Cache

variable (c : Cache)

def isLatest (key : TableName) (id : Nat) : Bool :=
  match c.tasks.get? key with
  | some t => t.id == id
  | none => false

/-- Changes a task if it is the latest of its object; nothing otherwise. -/
def updateTask? (key : TableName) (id : Nat) (change : Task → Task) : Option Cache :=
  match c.tasks.get? key with
  | some t => if t.id == id then some { c with tasks := c.tasks.set key (change t) } else none
  | none => none

def handles : TimerKind → KeyMap Nat
  | .refresh => c.refreshes
  | .retry => c.retries

def setHandles (kind : TimerKind) (handles : KeyMap Nat) : Cache :=
  match kind with
  | .refresh => { c with refreshes := handles }
  | .retry => { c with retries := handles }

def cancel (id : Option Nat) : Cache :=
  { c with timers := c.timers.filter fun t => some t.id != id }

def endTimer (kind : TimerKind) (key : TableName) : Cache :=
  (c.cancel ((c.handles kind).get? key)).setHandles kind ((c.handles kind).erase key)

def startTimer (kind : TimerKind) (key : TableName) (layer : Layer) (period : Nat) : Cache :=
  { c with
    timers := c.timers ++ [{ id := c.next, kind, key, layer, due := c.now + period, period }]
    next := c.next + 1 }

def keepTimer (kind : TimerKind) (key : TableName) (timer : Nat) : Cache :=
  (c.cancel ((c.handles kind).get? key)).setHandles kind ((c.handles kind).set key timer)

/-- Whether an object has a timer that will go off. -/
def isScheduled (kind : TimerKind) (key : TableName) : Bool :=
  match (c.handles kind).get? key with
  | some id => c.timers.any (·.id == id)
  | none => false

def shareOf : Process → Option Nat
  | .run r => r.lock
  | .firing { phase := .probing lock, .. } => some lock
  | .firing _ => none
  | .removal _ => none

def isShared (lock : Nat) : Bool := c.processes.any fun (_, p) => shareOf p == some lock

def wantsLock (lock : Nat) : Process → Bool
  | .run r =>
    r.lock == some lock &&
      match r.phase with
      | .waiting _ => true
      | phase => phase.hasLock
  | .firing _ | .removal _ => false

/-- Whether a process has a lock, or awaits it with a smaller ticket. -/
def precedes (lock ticket : Nat) : Process → Bool
  | .run r =>
    r.lock == some lock &&
      match r.phase with
      | .waiting other => other < ticket
      | phase => phase.hasLock
  | .firing _ | .removal _ => false

/-- The lock of an object, a new one if it has none. -/
def joinLock (key : TableName) : Nat × Cache :=
  match c.locks.get? key with
  | some lock => (lock, c)
  | none => (c.next, { c with locks := c.locks.set key c.next, next := c.next + 1 })

/-- Forgets the lock of an object, if nobody has a share of it. -/
def forgetLock (key : TableName) : Cache :=
  match c.locks.get? key with
  | some lock => if c.isShared lock then c else { c with locks := c.locks.erase key }
  | none => c

def spawn (p : Process) : Cache :=
  { c with processes := c.processes ++ [(c.next, p)], next := c.next + 1 }

def setProcess (pid : Nat) (p : Process) : Cache :=
  { c with processes := c.processes.map fun (other, q) => if other == pid then (pid, p) else (other, q) }

def endProcess (pid : Nat) : Cache := { c with processes := c.processes.filter (·.1 != pid) }

def process? (pid : Nat) : Option Process := (c.processes.find? (·.1 == pid)).map (·.2)

def lookup : CacheLookup := fun key => c.tables.get? key

end Cache

end SemanticLayer
