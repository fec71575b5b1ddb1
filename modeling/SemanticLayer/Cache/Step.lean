import SemanticLayer.Cache.State

/-! # Steps of the cache

What each process does next. A run of an object has the object's lock from before its task is marked
as running until everything about it is settled, so runs of one object follow each other.
-/

namespace SemanticLayer

/-- Whether an object of a layer can be cached. -/
def Layer.isCacheable (l : Layer) (key : TableName) : Bool :=
  l.owns key &&
    match l.kind? key.table with
    | some .model | some .metric | some .cumulativeMetric => true
    | some .view | none => false

def Layer.objectSql (l : Layer) (backend : Backend) (key : TableName) : Except SqlError String :=
  (Context.mk (.ofLayer l) l).compileSql backend ("SELECT * FROM " ++ Sql.quotedName key.table)

def Records.size (r : Records) : Nat := (r.rows.flatten.map Value.size).foldl (· + ·) 0

namespace Cache

variable (c : Cache)

def addTask (layer : Layer) (key : TableName) : Task × Cache :=
  let task : Task := { id := c.next, key }
  (task, { c with tasks := c.tasks.set key task, next := c.next + 1 }.spawn
    (.run { task := task.id, key, layer }))

def createTask (layer : Layer) (key : TableName) : Except CacheError (Task × Cache) :=
  if layer.isCacheable key then .ok (c.addTask layer key) else .error (.notCacheable key)

def writeTable (settings : CacheSettings) (key : TableName) (table : String)
    (answer : Except SourceError Records) : Except CacheError Store :=
  match answer with
  | .error e => .error (.source e)
  | .ok records =>
    if records.size > settings.sizeLimit then
      .error (.tooLarge key.render records.size settings.sizeLimit)
    else
      match c.store.create table records.columns records.rows with
      | .ok store => .ok store
      | .error e => .error (.store e)

def stepRun (settings : CacheSettings) (pid : Nat) (r : Run) : Option Cache :=
  let table := Task.tableName r.key r.task
  let goto (c : Cache) (phase : RunPhase) : Option Cache :=
    some (c.setProcess pid (.run { r with phase }))
  match r.phase with
  | .joining =>
    let (lock, c) := c.joinLock r.key
    some (c.setProcess pid (.run { r with lock := some lock, phase := .requesting }))
  | .requesting => goto { c with next := c.next + 1 } (.waiting c.next)
  | .waiting ticket =>
    match r.lock with
    | none => none
    | some lock =>
      if c.processes.any fun (other, p) => other != pid && precedes lock ticket p then none
      else goto c .starting
  | .starting =>
    match c.updateTask? r.key r.task (Task.start c.now table) with
    | some c => goto c .compiling
    | none => goto c .leaving
  | .compiling =>
    match r.layer.objectSql settings.backend r.key with
    | .ok sql => goto c (.asking sql)
    | .error e => goto c (.cleaning (.sql e))
  | .asking _ => none
  | .writing answer =>
    match c.writeTable settings r.key table answer with
    | .ok store => goto { c with store } .installing
    | .error e => goto c (.cleaning e)
  | .installing =>
    if c.isLatest r.key r.task then
      goto { c with tables := c.tables.set r.key table } (.replacing (c.tables.get? r.key))
    else goto c .discarding
  | .replacing previous =>
    match previous with
    | some old => goto (if old == table then c else { c with store := c.store.drop old }) .finishing
    | none => goto c .finishing
  | .finishing =>
    match c.updateTask? r.key r.task (Task.finish c.now) with
    | some c => goto c .endingRetry
    | none => goto c .leaving
  | .endingRetry =>
    let c := c.endTimer .retry r.key
    match r.layer.refreshTime? r.key.table with
    | some period => goto c (if period.nanos = 0 then .endingRefresh else .arming .refresh period.nanos)
    | none => goto c .endingRefresh
  | .endingRefresh => goto (c.endTimer .refresh r.key) .leaving
  | .arming kind period => goto (c.startTimer kind r.key r.layer period) (.keeping kind c.next)
  | .keeping kind timer => goto (c.keepTimer kind r.key timer) (.checking kind)
  | .discarding => goto { c with store := c.store.drop table } .leaving
  | .cleaning e => goto { c with store := c.store.drop table } (.failing e)
  | .failing e =>
    match c.updateTask? r.key r.task (Task.fail c.now (Task.failure r.key e)) with
    | some c => goto c .pausingRefresh
    | none => goto c .leaving
  | .pausingRefresh => goto (c.endTimer .refresh r.key) (.arming .retry settings.retryDelay)
  | .checking kind => goto c (if c.isLatest r.key r.task then .leaving else .undoing kind)
  | .undoing kind => goto (c.endTimer kind r.key) .leaving
  | .leaving => goto c .parting
  | .parting => some (c.setProcess pid (.run { r with lock := none, phase := .looking }))
  | .looking => if c.tasks.has r.key then some (c.endProcess pid) else goto c .forgetting
  | .forgetting => some ((c.forgetLock r.key).endProcess pid)

/-- The next step of a timer that has gone off. A refresh is left out while a run goes on. -/
def stepFiring (pid : Nat) (f : Firing) : Option Cache :=
  let goto (c : Cache) (phase : FiringPhase) : Option Cache :=
    some (c.setProcess pid (.firing { f with phase }))
  match f.phase with
  | .looking =>
    if !c.tasks.has f.key then some (c.endProcess pid)
    else
      match f.kind with
      | .refresh => goto c .joining
      | .retry => goto c .creating
  | .joining =>
    let (lock, c) := c.joinLock f.key
    goto c (.probing lock)
  | .probing lock =>
    if c.processes.any fun (_, p) => wantsLock lock p then some (c.endProcess pid)
    else goto c .creating
  | .creating =>
    match (c.endProcess pid).createTask f.layer f.key with
    | .ok (_, c) => some c
    | .error _ => some (c.endProcess pid)

def stepRemoval (pid : Nat) (r : Removal) : Option Cache :=
  let goto (c : Cache) (phase : RemovalPhase) : Option Cache :=
    some (c.setProcess pid (.removal { r with phase }))
  match r.phase with
  | .endingRefresh => goto (c.endTimer .refresh r.key) .endingRetry
  | .endingRetry => goto (c.endTimer .retry r.key) .erasingTask
  | .erasingTask => goto { c with tasks := c.tasks.erase r.key } .looking
  | .looking => goto c (if c.tasks.has r.key then .unmapping else .forgetting)
  | .forgetting => goto (c.forgetLock r.key) .unmapping
  | .unmapping =>
    match c.tables.get? r.key with
    | some table => goto { c with tables := c.tables.erase r.key } (.dropping table)
    | none => some (c.endProcess pid)
  | .dropping table => some ({ c with store := c.store.drop table }.endProcess pid)

def step (settings : CacheSettings) (pid : Nat) : Option Cache :=
  match c.process? pid with
  | none => none
  | some (.run r) => c.stepRun settings pid r
  | some (.firing f) => c.stepFiring pid f
  | some (.removal r) => c.stepRemoval pid r

def answer (pid : Nat) (reply : Except SourceError Records) : Cache :=
  match c.process? pid with
  | some (.run r) =>
    match r.phase with
    | .asking _ => c.setProcess pid (.run { r with phase := .writing reply })
    | _ => c
  | _ => c

/-- A timer goes off: a refresh will go off again, a retry is over. -/
def goOff (t : Timer) : Cache :=
  let timers := match t.kind with
    | .refresh =>
      c.timers.map fun other => if other.id == t.id then { t with due := t.due + t.period } else other
    | .retry => c.timers.filter (·.id != t.id)
  { c with timers }.spawn (.firing { kind := t.kind, key := t.key, layer := t.layer })

def remove (key : TableName) : Cache := c.spawn (.removal { key })

def stop : Cache :=
  let held := c.refreshes.map (·.2) ++ c.retries.map (·.2)
  { c with refreshes := [], retries := [], timers := c.timers.filter fun t => !held.contains t.id }

end Cache

end SemanticLayer
