import SemanticLayer.Simulation.Basic

/-! # Requests

What clients ask of the processor and its cache. A request that waits is given up when nothing can go on
any more; its answer is then nothing.
-/

namespace SemanticLayer.Simulation

variable (s : Simulation)

def create (key : TableName) : Except CacheError Task × Simulation :=
  match s.cache.createTask s.processor.layer key with
  | .ok (task, cache) => (.ok task, { s with cache })
  | .error e => (.error e, s)

def task? (key : TableName) : Option Task := s.cache.tasks.get? key

/-- The latest task of an object, if it is over; an object without a task has none to wait for. -/
def finished? (key : TableName) : Option (Option Task) :=
  match s.task? key with
  | none => some none
  | some t => if t.status.isFinal then some (some t) else none

def untilDone (key : TableName) : Option (Option Task) × Simulation :=
  match s.task? key with
  | none => (some none, s)
  | some _ => (s.settle.finished? key, s.settle)

def drive (pid : Nat) : Nat → Simulation → Simulation
  | 0, s => s
  | n + 1, s =>
    match s.stepProcess pid with
    | some next => drive pid n next
    | none => s

/-- Removes an object. Others go on while its table is dropped. -/
def remove (key : TableName) : Simulation :=
  let pid := s.cache.next
  let unmapped := drive pid RemovalPhase.endingRefresh.work.pred { s with cache := s.cache.remove key }
  match unmapped.cache.process? pid with
  | some _ => unmapped.settle
  | none => unmapped

def createAll (s : Simulation) : List TableName → Except CacheError Simulation
  | [] => .ok s
  | key :: rest =>
    match s.create key with
    | (.ok _, s) => createAll s rest
    | (.error e, _) => .error e

/-- The objects of some names, each once, in order. -/
def orderedKeys (keys : List TableName) : List TableName := keys.foldr (insertOrdered TableName.le) []

def knownKeys : List TableName := orderedKeys (s.cache.tasks.keys ++ s.cache.tables.keys)

def keys : List TableName :=
  orderedKeys (s.cache.tasks.keys ++ s.cache.tables.keys ++ s.cache.refreshes.keys ++
    s.cache.retries.keys)

/-- Caches the objects that the layer wants cached, forgets all others, and waits. -/
def refresh : Except CacheError (Option (List Task)) × Simulation :=
  let wanted := orderedKeys s.processor.layer.preAggregated
  let rest := (s.knownKeys.filter fun key => !wanted.contains key).foldl remove s
  match rest.createAll wanted with
  | .error e => (.error e, rest)
  | .ok started =>
    let s := started.settle
    (.ok ((wanted.mapM s.finished?).map fun found => found.filterMap id), s)

/-- Takes a new manifest and caches what it wants cached. A faulty manifest changes nothing. -/
def deploy (m : Manifest) : Except ProcessorError (Option (List Task)) × Simulation :=
  match Layer.ofManifest m with
  | .error e => (.error (.manifest e), s)
  | .ok layer =>
    let (tasks, s) := refresh { s with processor := { s.processor with layer } }
    (tasks.mapError .cache, s)

def ask (sql : String) : Option (Except SourceError Records) × Simulation :=
  let source := s.source.ask sql
  match source.pass? with
  | some source => (some (source.answer sql), { s with source })
  | none => (none, { s with source })

def queryLive (sql : String) : Except ProcessorError (Option Records) × Simulation :=
  match s.processor.sourceSql sql with
  | .error e => (.error (.sql e), s)
  | .ok live =>
    match s.ask live with
    | (some (.ok records), s) => (.ok (some records), s)
    | (some (.error e), s) => (.error (.source e), s)
    | (none, s) => (.ok none, s)

/-- Answers a query from the cache or else by the data source. -/
def query (sql : String) : Except ProcessorError (Option Records) × Simulation :=
  match s.processor.cachedAnswer? s.cache sql with
  | some (.ok records) => (.ok (some records), s)
  | some (.error _) => s.settle.queryLive sql
  | none => s.queryLive sql

def stop : Simulation := { s with cache := s.cache.stop }

def setRules (rules : List Rule) : Simulation := { s with source := { s.source with rules } }

/-- Closes or opens the gate. A run that waits there already goes on waiting for a permit. -/
def setGate (closed : Bool) : Simulation := { s with source := { s.source with closed } }

def release (count : Nat) : Simulation :=
  serve { s with source := { s.source with permits := s.source.permits + count } }

end SemanticLayer.Simulation
