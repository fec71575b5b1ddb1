import Mathlib.Data.List.Basic
import SemanticLayer.Simulation.Client

/-! # Histories

What happens to a cache is a list of actions: clients ask for tasks and removals, timers go off, the data
source answers, and processes take their steps, in any order. What the processes of a simulation do is such a list
too.
-/

namespace SemanticLayer

/-- Something that happens to a cache. -/
inductive Action where
  /-- A client asks for a task of an object. -/
  | create (layer : Layer) (key : TableName)
  /-- A client asks to remove an object. -/
  | remove (key : TableName)
  /-- A process takes its next step. -/
  | proceed (pid : Nat)
  /-- The data source answers a run. -/
  | answer (pid : Nat) (reply : Except SourceError Records)
  /-- The timer at some place of the list goes off, whether or not it is due. -/
  | goOff (place : Nat)
  | stop
  | setClock (time : Nat)

namespace Cache

variable {settings : CacheSettings} {c c' c'' : Cache} {actions : List Action}

/-- What an action makes of a cache; nothing if it cannot happen. -/
def act (settings : CacheSettings) (c : Cache) : Action → Option Cache
  | .create layer key => (c.createTask layer key).toOption.map (·.2)
  | .remove key => some (c.remove key)
  | .proceed pid => c.step settings pid
  | .answer pid reply => some (c.answer pid reply)
  | .goOff place => c.timers[place]?.map c.goOff
  | .stop => some c.stop
  | .setClock time => some { c with now := time }

def history (settings : CacheSettings) (c : Cache) (actions : List Action) : Option Cache :=
  actions.foldlM (act settings) c

theorem history_cons (c : Cache) (action : Action) (actions : List Action) :
    c.history settings (action :: actions) = (c.act settings action).bind fun c => c.history settings actions :=
  List.foldlM_cons

theorem history_append (c : Cache) (actions actions' : List Action) :
    c.history settings (actions ++ actions') = (c.history settings actions).bind fun c => c.history settings actions' :=
  List.foldlM_append

theorem history_preserves_of {P : Cache → Prop}
    (preserved : ∀ action ∈ actions, ∀ c c', P c → c.act settings action = some c' → P c') (start : P c)
    (reached : c.history settings actions = some c') : P c' := by
  induction actions generalizing c with
  | nil =>
    cases reached
    exact start
  | cons action actions ih =>
    rw [history_cons] at reached
    obtain ⟨next, acted, rest⟩ := Option.bind_eq_some_iff.mp reached
    obtain ⟨first, others⟩ := List.forall_mem_cons.mp preserved
    exact ih others (first c next start acted) rest

theorem history_preserves {P : Cache → Prop} (preserved : ∀ c action c', P c → c.act settings action = some c' → P c')
    (start : P c) (reached : c.history settings actions = some c') : P c' :=
  history_preserves_of (fun action _ c c' => preserved c action c') start reached

end Cache

namespace Simulation

/-- The cache of one simulation becomes that of another by some history. -/
def Reaches (s s' : Simulation) : Prop :=
  s'.settings = s.settings ∧ ∃ actions, s.cache.history s.settings actions = some s'.cache

variable {s s' s'' : Simulation} {key : TableName} {pid : Nat}

theorem Reaches.refl (s : Simulation) : s.Reaches s := ⟨rfl, [], rfl⟩

theorem Reaches.trans (first : s.Reaches s') (second : s'.Reaches s'') : s.Reaches s'' := by
  obtain ⟨same, actions, reached⟩ := first
  obtain ⟨same', actions', reached'⟩ := second
  refine ⟨same'.trans same, actions ++ actions', ?_⟩
  rw [same] at reached'
  rw [Cache.history_append, reached]
  exact reached'

theorem Reaches.act {c : Cache} (action : Action) (acted : s.cache.act s.settings action = some c) :
    s.Reaches { s with cache := c } := by
  refine ⟨rfl, [action], ?_⟩
  rw [Cache.history_cons, acted]
  rfl

theorem arrive_reaches (s : Simulation) (pid : Nat) (sql : String) : s.Reaches (s.arrive pid sql) := by
  unfold arrive
  dsimp only
  split
  · rename_i source passed
    exact Reaches.act (.answer pid (source.answer sql)) rfl
  · exact ⟨rfl, [], rfl⟩

theorem stepProcess_reaches (stepped : s.stepProcess pid = some s') : s.Reaches s' := by
  unfold stepProcess at stepped
  split at stepped
  · split at stepped
    · cases stepped
    · cases stepped
      exact arrive_reaches s pid _
  · obtain ⟨c, proceeds, rfl⟩ := Option.map_eq_some_iff.mp stepped
    exact .act (.proceed pid) proceeds

section Runs

variable {P : Simulation → Prop} (kept : ∀ s pid s', P s → s.stepProcess pid = some s' → P s') (start : P s)

include kept start

theorem steps_preserves (n : Nat) : P (steps n s) := by
  induction n generalizing s with
  | zero => exact start
  | succ n ih =>
    unfold steps
    cases stepped : s.step? with
    | none => exact start
    | some next =>
      obtain ⟨entry, _, goes⟩ := List.exists_of_findSome?_eq_some stepped
      exact ih (kept s entry.1 next start goes)

theorem drive_preserves (n : Nat) : P (drive pid n s) := by
  induction n generalizing s with
  | zero => exact start
  | succ n ih =>
    unfold drive
    cases stepped : s.stepProcess pid with
    | none => exact start
    | some next => exact ih (kept s pid next start stepped)

end Runs

theorem Reaches.step (s₁ : Simulation) (pid : Nat) (s₂ : Simulation) (reached : s.Reaches s₁)
    (stepped : s₁.stepProcess pid = some s₂) : s.Reaches s₂ :=
  reached.trans (stepProcess_reaches stepped)

theorem steps_reaches (n : Nat) (s : Simulation) : s.Reaches (steps n s) := steps_preserves Reaches.step (.refl s) n

theorem settle_reaches (s : Simulation) : s.Reaches s.settle := steps_reaches _ s

theorem drive_reaches (pid n : Nat) (s : Simulation) : s.Reaches (drive pid n s) :=
  drive_preserves Reaches.step (.refl s) n

theorem mem_or_eq_of_foldl {α : Type} {choose : Option α → α → Option α} {chosen : α}
    (takes : ∀ best a, choose best a = some chosen → a = chosen ∨ best = some chosen) :
    ∀ (l : List α) (best : Option α), l.foldl choose best = some chosen → chosen ∈ l ∨ best = some chosen
  | [], _, same => .inr same
  | a :: l, best, ends => by
    rcases mem_or_eq_of_foldl takes l (choose best a) ends with later | now
    · exact .inl (List.mem_cons_of_mem _ later)
    · rcases takes best a now with rfl | before
      · exact .inl List.mem_cons_self
      · exact .inr before

theorem mem_timers_of_dueTimer? {time : Nat} {t : Timer} (due : s.dueTimer? time = some t) : t ∈ s.cache.timers := by
  have ends : t ∈ s.cache.timers.filter (·.due ≤ time) ∨ none = some t := by
    refine mem_or_eq_of_foldl (fun best first chosen => ?_) _ _ due
    cases best with
    | none => exact .inl (Option.some.inj chosen)
    | some b =>
      dsimp only at chosen
      split at chosen
      · exact .inl (Option.some.inj chosen)
      · exact .inr chosen
  rcases ends with here | nothing
  · exact (List.mem_filter.mp here).1
  · cases nothing

end Simulation

end SemanticLayer
