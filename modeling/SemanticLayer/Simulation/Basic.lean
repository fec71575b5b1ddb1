import SemanticLayer.Cache.Work
import SemanticLayer.Processor
import SemanticLayer.Simulation.Source

/-! # Simulation

A processor and its cache over a scripted data source, with a clock of their own. The oldest process that
can go on does so, until all wait for the source, for each other or for a timer.
-/

namespace SemanticLayer

/-- A processor, its cache and its data source. -/
structure Simulation where
  processor : Processor
  cache : Cache := {}
  source : Simulation.Source
  /-- The most bytes that a cached table may hold. -/
  sizeLimit : Nat
  /-- After how many nanoseconds a failed task is tried again. -/
  retryDelay : Nat
  /-- The runs that wait at the gate, the first first, and their queries. -/
  waiting : List (Nat × String) := []

namespace Simulation

variable (s : Simulation)

def settings : CacheSettings :=
  { backend := s.processor.backend, sizeLimit := s.sizeLimit, retryDelay := s.retryDelay }

/-- A run comes to the gate with its query. -/
def arrive (pid : Nat) (sql : String) : Simulation :=
  let source := s.source.ask sql
  match source.pass? with
  | some source => { s with source, cache := s.cache.answer pid (source.answer sql) }
  | none => { s with source, waiting := s.waiting ++ [(pid, sql)] }

/-- Lets the runs at the gate pass, the first first, as far as there are permits. -/
def serve (s : Simulation) : Simulation :=
  let passing := s.waiting.take s.source.permits
  let cache := passing.foldl (fun cache (pid, sql) => cache.answer pid (s.source.answer sql)) s.cache
  { s with
    cache
    source := { s.source with permits := s.source.permits - passing.length }
    waiting := s.waiting.drop s.source.permits }

def stepProcess (pid : Nat) : Option Simulation :=
  match s.cache.process? pid with
  | some (.run { phase := .asking sql, .. }) =>
    if s.waiting.any (·.1 == pid) then none else some (s.arrive pid sql)
  | _ => (s.cache.step s.settings pid).map fun cache => { s with cache }

/-- The next step of the oldest process that can go on. -/
def step? : Option Simulation := s.cache.processes.findSome? fun (pid, _) => s.stepProcess pid

def steps : Nat → Simulation → Simulation
  | 0, s => s
  | n + 1, s =>
    match s.step? with
    | some next => steps n next
    | none => s

def settle : Simulation := steps s.cache.work s

def dueTimer? (time : Nat) : Option Timer :=
  (s.cache.timers.filter (·.due ≤ time)).foldl
    (fun best t =>
      match best with
      | some b => if t.due < b.due then some t else best
      | none => some t)
    none

/-- Lets the clock go to some time; the timers on the way go off in order. -/
def advanceTo (time : Nat) : Nat → Simulation → Simulation
  | 0, s => s
  | n + 1, s =>
    match s.dueTimer? time with
    | none => { s with cache := { s.cache with now := time } }
    | some t =>
      let cache := { s.cache with now := t.due }.goOff t
      advanceTo time n (settle { s with cache })

/-- Lets nanoseconds pass. A timer that goes off and is set again is due later, so each instant has at
most two for each object. -/
def advance (nanos : Nat) : Simulation :=
  let s := s.settle
  let perInstant := 2 * s.cache.tasks.length + s.cache.timers.length
  advanceTo (s.cache.now + nanos) ((nanos + 1) * perInstant + 1) s

end Simulation

end SemanticLayer
