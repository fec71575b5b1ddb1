import SemanticLayer.Cache.State

/-! # Work left

How many steps a process has left at most. Every step makes the work of the whole cache smaller, so the
cache comes to rest.
-/

namespace SemanticLayer

/-- The steps a run has left at most. -/
def RunPhase.work : RunPhase → Nat
  | .joining => 23
  | .requesting => 22
  | .waiting _ => 21
  | .starting => 20
  | .compiling => 19
  | .asking _ => 18
  | .writing _ => 17
  | .installing | .cleaning _ => 16
  | .replacing _ | .failing _ | .discarding => 15
  | .finishing => 14
  | .endingRetry | .pausingRefresh => 13
  | .arming _ _ | .endingRefresh => 12
  | .keeping _ _ => 11
  | .checking _ => 10
  | .undoing _ => 9
  | .leaving => 4
  | .parting => 3
  | .looking => 2
  | .forgetting => 1

/-- The steps a timer that has gone off has left at most, those of the run it starts included. -/
def FiringPhase.work : FiringPhase → Nat
  | .looking => 27
  | .joining => 26
  | .probing _ => 25
  | .creating => 24

def RemovalPhase.work : RemovalPhase → Nat
  | .endingRefresh => 7
  | .endingRetry => 6
  | .erasingTask => 5
  | .looking => 4
  | .forgetting => 3
  | .unmapping => 2
  | .dropping _ => 1

def Process.work : Process → Nat
  | .run r => r.phase.work
  | .firing f => f.phase.work
  | .removal r => r.phase.work

def Cache.work (c : Cache) : Nat := (c.processes.map (·.2.work)).foldr (· + ·) 0

end SemanticLayer
