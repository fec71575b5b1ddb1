import SemanticLayer.Cache.Task

/-! # Scripted data source

A data source that answers by rules. While its gate is closed, a query needs a permit to pass.
-/

namespace SemanticLayer.Simulation

structure Rule where
  contains : String
  answer : Except SourceError Records

structure Source where
  rules : List Rule
  closed : Bool := false
  /-- How many queries may pass the closed gate. -/
  permits : Nat := 0
  /-- The queries that have come, latest first. -/
  asked : List String := []

namespace Source

variable (s : Source)

/-- The answer of the first rule that fits. -/
def answer (sql : String) : Except SourceError Records :=
  match s.rules.find? fun r => Text.occursIn r.contains sql with
  | some r => r.answer
  | none => .error (.query "no rule")

def ask (sql : String) : Source := { s with asked := sql :: s.asked }

/-- Lets one query pass the gate; nothing if it has to wait. -/
def pass? : Option Source :=
  if !s.closed then some s
  else
    match s.permits with
    | 0 => none
    | n + 1 => some { s with permits := n }

end Source

end SemanticLayer.Simulation
