import SemanticLayer.Proofs.Redeploying

/-! # What a deployment copies

While the data source answers by the same rules, it is settled from the start what a run is going to copy, or why it
fails. A run whose task stays the latest one of its object puts just that table in place of the former one, or fails
and leaves the former one where it is.
-/

namespace SemanticLayer

open List

section Runs

variable (settings : CacheSettings) (reply : String → Except SourceError Records)

/-- The store with the table that a run copies, or why it fails. -/
def Run.outcome (r : Run) : Except CacheError Store := r.layer.materialize settings reply r.key r.table

/-- What a run has found out so far is right. -/
def Run.Learnt (r : Run) : Prop :=
  match r.phase with
  | .asking sql => r.layer.objectSql settings.backend r.key = .ok sql
  | .writing answer => ∃ sql, r.layer.objectSql settings.backend r.key = .ok sql ∧ reply sql = answer
  | .installing | .replacing _ | .finishing => ∃ alone, r.outcome settings reply = .ok alone
  | .cleaning e | .failing e => r.outcome settings reply = .error e
  | _ => True

/-- Whether the run has put its table in place of the former one, and has yet to say so. -/
def RunPhase.hasInstalled : RunPhase → Bool
  | .replacing _ | .finishing => true
  | _ => false

/-- The task of a run is the latest one. Until it is over, the object has its former table or else that of the run. -/
def Run.Stands (former : Option String) (a : Affairs) (r : Run) : Prop :=
  ∃ t, a.task = some t ∧ t.id = r.task ∧ (r.phase.isPending = true →
    t.status.isFinal = false ∧ a.mapped = if r.phase.hasInstalled then some r.table else former)

/-- What a task says of an object is right. -/
def Task.Tells (l : Layer) (former : Option String) (a : Affairs) (t : Task) : Prop :=
  match t.status with
  | .done => a.mapped = some (tableName t.key t.id) ∧
    ∃ alone, l.materialize settings reply t.key (tableName t.key t.id) = .ok alone
  | .failed => a.mapped = former ∧ ∃ e, l.materialize settings reply t.key (tableName t.key t.id) = .error e ∧
    t.error = some (failure t.key e)
  | .queued | .running => True

variable {settings reply} {l : Layer} {former : Option String} {c c' core : Cache} {pid : Nat} {a a' : Affairs} {r : Run}

theorem Task.Tells.of_pending {t : Task} (pending : t.status.isFinal = false) : t.Tells settings reply l former a := by
  unfold Task.Tells
  split <;> rename_i status
  · rw [status] at pending
    cases pending
  · rw [status] at pending
    cases pending
  all_goals trivial

theorem Task.Tells.mono {t : Task} (tells : t.Tells settings reply l former a) (mapped : a'.mapped = a.mapped) :
    t.Tells settings reply l former a' := by
  unfold Task.Tells at tells ⊢
  rw [mapped]
  exact tells

theorem RunPhase.Passes.hasInstalled {phase phase' : RunPhase} (passes : phase.Passes phase') :
    phase'.isPending = true → phase.isPending = true ∧ phase'.hasInstalled = phase.hasInstalled := by
  cases passes <;> simp [RunPhase.isPending, RunPhase.hasInstalled]

/-- While the run of the latest task goes on, what that task says stays right. -/
theorem Run.Turn.tells {next : Option Process} (turn : r.Turn c pid a next a') (learnt : r.Learnt settings reply)
    (stands : r.Stands former a)
    (right : ∀ t, a.task = some t → t.key = r.key ∧ t.Tells settings reply r.layer former a) :
    (∃ t, a'.task = some t ∧ t.id = r.task ∧ t.key = r.key ∧ t.Tells settings reply r.layer former a') ∧
      ∀ q, next = some q → ∃ lock phase, q = .run { r with lock, phase } ∧
        Run.Stands former a' { r with lock, phase } := by
  obtain ⟨t, found, latest, standing⟩ := stands
  obtain ⟨own, tells⟩ := right t found
  have kept {a' : Affairs} (task : a'.task = a.task) (mapped : a'.mapped = a.mapped) :
      ∃ t, a'.task = some t ∧ t.id = r.task ∧ t.key = r.key ∧ t.Tells settings reply r.layer former a' :=
    ⟨t, task.trans found, latest, own, tells.mono mapped⟩
  have settled {a' : Affairs} {lock : Option Nat} {phase : RunPhase} (task : a'.task = a.task)
      (done : phase.isPending = false) : ∀ q, some (Process.run { r with lock, phase }) = some q →
      ∃ lock phase, q = .run { r with lock, phase } ∧ Run.Stands former a' { r with lock, phase } := by
    rintro q ⟨⟩
    refine ⟨_, _, rfl, t, task.trans found, latest, fun pending => ?_⟩
    cases done.symm.trans pending
  cases turn with
  | pass passes =>
    refine ⟨kept rfl rfl, fun q same => ⟨r.lock, _, (Option.some.inj same).symm, t, found, latest, fun pending => ?_⟩⟩
    obtain ⟨pending, installed⟩ := passes.hasInstalled pending
    have standing := standing pending
    rw [← installed] at standing
    exact standing
  | join here _ | acquire here _ _ =>
    rw [here] at standing
    exact ⟨kept rfl rfl, fun q same =>
      ⟨_, _, (Option.some.inj same).symm, t, found, latest, fun _ => standing rfl⟩⟩
  | start here found' _ =>
    cases found.symm.trans found'
    rw [here] at standing
    obtain ⟨_, mapped⟩ := standing rfl
    exact ⟨⟨_, rfl, latest, own, .of_pending rfl⟩, fun q same =>
      ⟨_, _, (Option.some.inj same).symm, _, rfl, latest, fun _ => ⟨rfl, mapped⟩⟩⟩
  | install here _ =>
    rw [here] at standing
    obtain ⟨pending, _⟩ := standing rfl
    exact ⟨⟨t, found, latest, own, .of_pending pending⟩, fun q same =>
      ⟨_, _, (Option.some.inj same).symm, t, found, latest, fun _ => ⟨pending, rfl⟩⟩⟩
  | finish here found' _ =>
    cases found.symm.trans found'
    simp only [Run.Learnt, here] at learnt
    rw [here] at standing
    have table : r.table = Task.tableName t.key t.id := by rw [own, latest, Run.table]
    refine ⟨⟨_, rfl, latest, own, ?_, ?_⟩, fun q same =>
      ⟨_, _, (Option.some.inj same).symm, _, rfl, latest, by rintro ⟨⟩⟩⟩
    · exact (standing rfl).2.trans (congrArg some table)
    · rw [Run.outcome, table, ← own] at learnt
      exact learnt
  | @fail _ now e here found' _ =>
    cases found.symm.trans found'
    simp only [Run.Learnt, here] at learnt
    rw [here] at standing
    refine ⟨⟨_, rfl, latest, own, ?_, e, ?_, ?_⟩, fun q same =>
      ⟨_, _, (Option.some.inj same).symm, _, rfl, latest, by rintro ⟨⟩⟩⟩
    · exact (standing rfl).2
    · rw [Run.outcome, Run.table, ← own, ← latest] at learnt
      exact learnt
    · exact congrArg (fun key => some (Task.failure key e)) own.symm
  | yield _ other => exact absurd ⟨t, found, latest⟩ other
  | endRetry here schedules =>
    refine ⟨kept rfl rfl, settled rfl ?_⟩
    rcases schedules with rfl | ⟨period, _, _, rfl⟩ <;> rfl
  | endRefresh _ | pause _ | confirm _ _ | release _ | part _ | miss _ _ => exact ⟨kept rfl rfl, settled rfl rfl⟩
  | @keep kind timer _ =>
    obtain ⟨task, mapped⟩ := a.setTimer_rest (some timer) kind
    exact ⟨kept task mapped, settled task rfl⟩
  | @undo kind _ =>
    obtain ⟨task, mapped⟩ := a.setTimer_rest none kind
    exact ⟨kept task mapped, settled task rfl⟩
  | stay _ _ => exact ⟨kept rfl rfl, by rintro q ⟨⟩⟩
  | forget _ forgets =>
    obtain ⟨task, mapped, _⟩ := forgets.same
    exact ⟨kept task mapped, by rintro q ⟨⟩⟩

namespace Cache

theorem learnt_setProcess {next : Run} (learnt : next.Learnt settings reply) :
    ∀ r', (pid, .run r') ∈ (core.setProcess pid (.run next)).processes → r'.Learnt settings reply := by
  intro r' member
  rcases mem_setProcess.mp member with ⟨elsewhere, _⟩ | ⟨_, same, _⟩
  · exact absurd rfl elsewhere
  · cases same
    exact learnt

/-- A run knows what it has found out in its next phase as well, and adds no table to the store but the one it
    copies. -/
theorem stepRun_learnt (stepped : c.stepRun settings pid r = some c') (learnt : r.Learnt settings reply)
    (free : ∀ answer, r.phase = .writing answer → c.store.table? r.table = none) :
    (∀ r', (pid, .run r') ∈ c'.processes → r'.Learnt settings reply) ∧
      ∀ t ∈ c'.store.tables, t ∈ c.store.tables ∨
        ∃ alone, r.outcome settings reply = .ok alone ∧ alone.tables = [t] := by
  obtain ⟨task, key, layer, lock, phase⟩ := r
  cases phase with
  | joining =>
    cases stepped
    exact ⟨learnt_setProcess trivial, fun t member => .inl ((joinLock_tables key).2 ▸ member)⟩
  | compiling =>
    unfold stepRun at stepped
    dsimp only at stepped
    split at stepped <;> rename_i compiled <;> cases stepped
    · exact ⟨learnt_setProcess compiled, fun _ => .inl⟩
    · refine ⟨learnt_setProcess ?_, fun _ => .inl⟩
      simp only [Run.Learnt, Run.outcome, Layer.materialize, compiled]
  | asking sql => cases stepped
  | writing answer =>
    obtain ⟨sql, compiled, answered⟩ := learnt
    have made : Run.outcome settings reply ⟨task, key, layer, lock, .writing answer⟩ =
        ({} : Cache).writeTable settings key (Task.tableName key task) answer := by
      simp only [Run.outcome, Layer.materialize, compiled, answered, Run.table]
    have free : c.store.table? (Task.tableName key task) = none := free answer rfl
    unfold stepRun at stepped
    dsimp only at stepped
    rw [writeTable_of_free free] at stepped
    cases written : ({} : Cache).writeTable settings key (Task.tableName key task) answer with
    | ok alone =>
      rw [written] at stepped
      cases stepped
      refine ⟨learnt_setProcess ⟨alone, made.trans written⟩, fun t member => ?_⟩
      obtain ⟨t', single, _⟩ := writeTable_alone written
      rcases mem_append.mp member with old | new
      · exact .inl old
      · rw [single, mem_singleton] at new
        exact .inr ⟨alone, made.trans written, new ▸ single⟩
    | error e =>
      rw [written] at stepped
      cases stepped
      exact ⟨learnt_setProcess (made.trans written), fun _ => .inl⟩
  | installing =>
    unfold stepRun at stepped
    dsimp only at stepped
    split at stepped <;> cases stepped
    · exact ⟨learnt_setProcess learnt, fun _ => .inl⟩
    · exact ⟨learnt_setProcess trivial, fun _ => .inl⟩
  | replacing previous =>
    unfold stepRun at stepped
    dsimp only at stepped
    split at stepped <;> cases stepped
    · refine ⟨learnt_setProcess learnt, fun t member => .inl ?_⟩
      dsimp only [setProcess] at member
      split at member
      · exact member
      · exact mem_of_mem_filter member
    · exact ⟨learnt_setProcess learnt, fun _ => .inl⟩
  | cleaning e =>
    cases stepped
    exact ⟨learnt_setProcess learnt, fun t member => .inl (mem_of_mem_filter member)⟩
  | discarding =>
    cases stepped
    exact ⟨learnt_setProcess trivial, fun t member => .inl (mem_of_mem_filter member)⟩
  | starting | finishing | failing e =>
    unfold stepRun at stepped
    dsimp only at stepped
    split at stepped <;> rename_i updated
    · obtain ⟨t, _, _, rfl⟩ := updateTask?_some updated
      cases stepped
      exact ⟨learnt_setProcess trivial, fun _ => .inl⟩
    · cases stepped
      exact ⟨learnt_setProcess trivial, fun _ => .inl⟩
  | keeping kind timer =>
    cases stepped
    exact ⟨learnt_setProcess trivial, fun t member => .inl ((keepTimer_tables kind key timer).2 ▸ member)⟩
  | undoing kind =>
    cases stepped
    exact ⟨learnt_setProcess trivial, fun t member => .inl ((endTimer_tables kind key).2 ▸ member)⟩
  | looking =>
    unfold stepRun at stepped
    dsimp only at stepped
    split at stepped <;> cases stepped
    · exact ⟨fun r' member => absurd rfl (mem_endProcess.mp member).1, fun _ => .inl⟩
    · exact ⟨learnt_setProcess trivial, fun _ => .inl⟩
  | forgetting =>
    cases stepped
    exact ⟨fun r' member => absurd rfl (mem_endProcess.mp member).1,
      fun t member => .inl ((forgetLock_tables key).1.2 ▸ member)⟩
  | waiting ticket | endingRetry | checking kind =>
    unfold stepRun at stepped
    dsimp only at stepped
    repeat' split at stepped
    all_goals cases stepped
    all_goals exact ⟨learnt_setProcess trivial, fun _ => .inl⟩
  | _ =>
    cases stepped
    exact ⟨learnt_setProcess trivial, fun _ => .inl⟩

theorem stepRemoval_store {r : Removal} (stepped : c.stepRemoval pid r = some c') :
    ∀ t ∈ c'.store.tables, t ∈ c.store.tables := by
  obtain ⟨key, phase⟩ := r
  cases phase with
  | dropping table =>
    cases stepped
    exact fun t member => mem_of_mem_filter member
  | forgetting =>
    cases stepped
    exact fun t member => (forgetLock_tables key).1.2 ▸ member
  | unmapping =>
    unfold stepRemoval at stepped
    dsimp only at stepped
    split at stepped <;> cases stepped <;> exact fun _ => id
  | _ =>
    cases stepped
    exact fun _ => id

end Cache

end Runs

theorem Removal.Turn.goes_on {c : Cache} {r : Removal} {a a' : Affairs} {q : Process} (turn : r.Turn c a (some q) a') :
    ∃ phase, q = .removal { r with phase } := by
  cases turn <;> exact ⟨_, rfl⟩

namespace Cache

section Accounts

variable {c : Cache} {name : String} {t : Table} (inv : Accounted {} c)

include inv

theorem Accounted.name_mem (stored : t ∈ c.store.tables) : t.name ∈ c.tables.map (·.2) ++ c.held := by
  obtain ⟨made, split, names⟩ := inv.balanced.stored
  rw [split, nil_append] at stored
  exact names.mem_iff.mp (mem_map_of_mem stored)

theorem Accounted.table?_reserved (reserved : name ∈ c.reserved) : c.store.table? name = none := by
  refine find?_eq_none.mpr fun t stored same => ?_
  rw [(pairwise_append.mp inv.balanced.apart).2.2 t.name (inv.name_mem stored) name reserved] at same
  cases same

theorem Accounted.table?_of_mem (stored : t ∈ c.store.tables) : c.store.table? t.name = some t := by
  obtain ⟨made, split, names⟩ := inv.balanced.stored
  have symmetric : Std.Symm fun a b : Table => sameName a.name b.name = false := ⟨fun _ _ => sameName_comm⟩
  have apart : made.Pairwise fun a b => sameName a.name b.name = false := by
    have owned := (pairwise_append.mp inv.balanced.apart).1
    rw [← names.pairwise_iff sameName_comm, pairwise_map] at owned
    exact owned
  rw [nil_append] at split
  cases found : c.store.tables.find? (sameName ·.name t.name) with
  | none => exact absurd (sameName_self t.name) (find?_eq_none.mp found t stored)
  | some t' =>
    refine found.trans (congrArg some ?_)
    by_contra different
    have same := find?_some found
    have first := mem_of_find?_eq_some found
    rw [split] at first stored
    rw [apart.forall first stored different] at same
    cases same

end Accounts

/-- A run of a deployment. -/
structure Follows (settings : CacheSettings) (reply : String → Except SourceError Records) (l : Layer) (before c : Cache)
    (keys : List TableName) (r : Run) : Prop where
  begun : r.key ∈ keys
  layer : r.layer = l
  learnt : r.Learnt settings reply
  stands : r.Stands (before.lookup r.key) (c.affairs r.key)

/-- A deployment has begun to copy some of the objects that its layer wants, and forgets others. -/
structure Copies (settings : CacheSettings) (reply : String → Except SourceError Records) (l : Layer) (before : Cache)
    (keys : List TableName) (c : Cache) : Prop where
  wanted : keys ⊆ l.preAggregated
  accounted : Accounted {} c
  processes : ∀ pid p, (pid, p) ∈ c.processes → (∃ r, p = .run r ∧ Follows settings reply l before c keys r) ∨
    ∃ r, p = .removal r ∧ r.key ∉ l.preAggregated
  alone : ∀ pid r pid' r', (pid, .run r) ∈ c.processes → (pid', .run r') ∈ c.processes → r.key = r'.key → pid = pid'
  begun : ∀ key ∈ keys, ∃ t, (c.affairs key).task = some t ∧ t.key = key ∧ before.next ≤ t.id ∧
    t.Tells settings reply l (before.lookup key) (c.affairs key)
  unbegun : ∀ key ∈ l.preAggregated, key ∉ keys → (c.affairs key).mapped = before.lookup key
  stored : ∀ t ∈ c.store.tables, t ∈ before.store.tables ∨ ∃ key id alone, before.next ≤ id ∧
    l.materialize settings reply key (Task.tableName key id) = .ok alone ∧ alone.tables = [t]
  next : before.next ≤ c.next

theorem Moves.next_le {c c' : Cache} {pid : Nat} {p : Process} (moves : Moves c pid p c') : c.next ≤ c'.next := by
  cases moves with
  | goes alters _ => exact alters.next
  | ends alters _ => exact alters.next
  | begins _ _ _ => exact Nat.le_add_right c.next 2

section Copies

variable {settings : CacheSettings} {reply : String → Except SourceError Records} {l : Layer} {before c c' : Cache}
  {keys : List TableName} {key : TableName} {pid : Nat} {p : Process} {r : Run}
  (inv : Copies settings reply l before keys c)

include inv

theorem Copies.next_le_task (follows : Follows settings reply l before c keys r) : before.next ≤ r.task := by
  obtain ⟨t, found, _, new, _⟩ := inv.begun r.key follows.begun
  obtain ⟨t', found', latest, _⟩ := follows.stands
  cases found.symm.trans found'
  exact latest ▸ new

/-- A process that takes a turn is the only run of its object, or a removal of an object that is not wanted. -/
theorem Copies.moves (member : (pid, p) ∈ c.processes) (moves : Moves c pid p c')
    (learnt : ∀ r r', p = .run r → (pid, .run r') ∈ c'.processes → r'.Learnt settings reply) (accounted : Accounted {} c')
    (stored : ∀ t ∈ c'.store.tables, t ∈ before.store.tables ∨ ∃ key id alone, before.next ≤ id ∧
      l.materialize settings reply key (Task.tableName key id) = .ok alone ∧ alone.tables = [t]) :
    Copies settings reply l before keys c' := by
  have next := Nat.le_trans inv.next moves.next_le
  have mine := inv.processes pid p member
  rcases moves.turns member with ⟨f, rfl, _⟩ | ⟨following, turn, others, processes⟩
  · rcases mine with ⟨_, run, _⟩ | ⟨_, removal, _⟩
    · cases run
    · cases removal
  have elsewhere : ∀ other r, other ≠ pid → (other, .run r) ∈ c.processes → r.key ≠ p.key := by
    intro other r different old same
    rcases mine with ⟨r', rfl, _⟩ | ⟨r', rfl, unwanted⟩
    · exact different (inv.alone other r pid r' old member same)
    · rcases inv.processes other _ old with ⟨_, run, follows⟩ | ⟨_, removal, _⟩
      · cases run
        have wanted := inv.wanted follows.begun
        rw [same] at wanted
        exact unwanted wanted
      · cases removal
  have alone : ∀ number r number' r', (number, .run r) ∈ c'.processes → (number', .run r') ∈ c'.processes →
      r.key = r'.key → number = number' := by
    intro number r number' r' here here' same
    rcases (processes _ _).mp here with ⟨old, here⟩ | ⟨rfl, goes⟩ <;>
      rcases (processes _ _).mp here' with ⟨old', here'⟩ | ⟨rfl, goes'⟩
    · exact inv.alone number r number' r' here here' same
    · subst goes'
      exact absurd (same.trans turn.key_eq) (elsewhere number r old here)
    · subst goes
      exact absurd (same.symm.trans turn.key_eq) (elsewhere number' r' old' here')
    · rfl
  have old : ∀ other q, other ≠ pid → (other, q) ∈ c.processes →
      (∃ r, q = .run r ∧ Follows settings reply l before c' keys r) ∨ ∃ r, q = .removal r ∧ r.key ∉ l.preAggregated := by
    intro other q different here
    refine (inv.processes other q here).imp_left ?_
    rintro ⟨r, rfl, follows⟩
    refine ⟨r, rfl, follows.begun, follows.layer, follows.learnt, ?_⟩
    rw [others r.key (elsewhere other r different here)]
    exact follows.stands
  rcases mine with ⟨r, rfl, follows⟩ | ⟨r, rfl, unwanted⟩
  · obtain ⟨t₀, found₀, own₀, _, tells₀⟩ := inv.begun r.key follows.begun
    cases turn with
    | run turn =>
      have right : ∀ t, (c.affairs r.key).task = some t →
          t.key = r.key ∧ t.Tells settings reply r.layer (before.lookup r.key) (c.affairs r.key) := by
        intro t found
        cases found₀.symm.trans found
        exact ⟨own₀, follows.layer ▸ tells₀⟩
      obtain ⟨⟨t, found, latest, own, tells⟩, goes⟩ := turn.tells follows.learnt follows.stands right
      refine ⟨inv.wanted, accounted, fun other q here => ?_, alone, fun key begun => ?_, fun key wanted unbegun => ?_,
        stored, next⟩
      · rcases (processes other q).mp here with ⟨different, here⟩ | ⟨rfl, same⟩
        · exact old other q different here
        · obtain ⟨lock, phase, rfl, stands⟩ := goes q same
          exact .inl ⟨_, rfl, follows.begun, follows.layer, learnt r _ rfl here, stands⟩
      · by_cases same : key = r.key
        · refine ⟨t, same ▸ found, own.trans same.symm, ?_, same ▸ follows.layer ▸ tells⟩
          rw [latest]
          exact inv.next_le_task follows
        · rw [others key same]
          exact inv.begun key begun
      · rw [others key fun same => unbegun (same ▸ follows.begun)]
        exact inv.unbegun key wanted unbegun
  · have apart : ∀ key ∈ l.preAggregated, key ≠ r.key := by
      rintro key wanted rfl
      exact unwanted wanted
    refine ⟨inv.wanted, accounted, fun other q here => ?_, alone, fun key begun => ?_, fun key wanted unbegun => ?_,
      stored, next⟩
    · rcases (processes other q).mp here with ⟨different, here⟩ | ⟨rfl, same⟩
      · exact old other q different here
      · cases turn with
        | removal turn =>
          subst same
          obtain ⟨phase, rfl⟩ := turn.goes_on
          exact .inr ⟨_, rfl, unwanted⟩
    · rw [others key (apart key (inv.wanted begun))]
      exact inv.begun key begun
    · rw [others key (apart key wanted)]
      exact inv.unbegun key wanted unbegun

theorem Copies.addTask (wanted : key ∈ l.preAggregated) (new : key ∉ keys) :
    Copies settings reply l before (key :: keys) (c.addTask l key).2 := by
  have own : (c.addTask l key).2.affairs key = { c.affairs key with task := some { id := c.next, key } } := by
    simp [affairs, Cache.addTask, Cache.spawn]
  have others : ∀ other, other ≠ key → (c.addTask l key).2.affairs other = c.affairs other :=
    fun other different => addTask_elsewhere l different
  have elsewhere : ∀ pid r, (pid, .run r) ∈ c.processes → r.key ∈ keys ∧ r.key ≠ key := by
    intro pid r old
    rcases inv.processes pid _ old with ⟨_, run, follows⟩ | ⟨_, removal, _⟩
    · cases run
      exact ⟨follows.begun, fun same => new (same ▸ follows.begun)⟩
    · cases removal
  have former := inv.unbegun key wanted new
  refine ⟨cons_subset.mpr ⟨wanted, inv.wanted⟩, inv.accounted.addTask (fun _ none => by cases none) l key,
    fun pid p here => ?_, fun pid r pid' r' here here' same => ?_, fun other begun => ?_, fun other wanted unbegun => ?_,
    inv.stored, Nat.le_trans inv.next (Nat.le_add_right _ 2)⟩
  · rcases mem_append.mp here with old | here
    · refine (inv.processes pid p old).imp_left ?_
      rintro ⟨r, rfl, follows⟩
      refine ⟨r, rfl, mem_cons_of_mem _ follows.begun, follows.layer, follows.learnt, ?_⟩
      rw [others r.key (elsewhere pid r old).2]
      exact follows.stands
    · cases mem_singleton.mp here
      refine .inl ⟨_, rfl, mem_cons_self, rfl, trivial, ?_⟩
      dsimp only
      rw [own]
      exact ⟨_, rfl, rfl, fun _ => ⟨rfl, former⟩⟩
  · rcases mem_append.mp here with old | here <;> rcases mem_append.mp here' with old' | here'
    · exact inv.alone pid r pid' r' old old' same
    · cases mem_singleton.mp here'
      exact absurd same (elsewhere pid r old).2
    · cases mem_singleton.mp here
      exact absurd same.symm (elsewhere pid' r' old').2
    · cases mem_singleton.mp here
      cases mem_singleton.mp here'
      rfl
  · rcases mem_cons.mp begun with rfl | begun
    · rw [own]
      exact ⟨_, rfl, rfl, inv.next, trivial⟩
    · rw [others other fun same => new (same ▸ begun)]
      exact inv.begun other begun
  · rw [mem_cons, not_or] at unbegun
    rw [others other unbegun.1]
    exact inv.unbegun other wanted unbegun.2

theorem Copies.remove (unwanted : key ∉ l.preAggregated) : Copies settings reply l before keys (c.remove key) := by
  have removed : c.act settings (.remove key) = some (c.remove key) := rfl
  have mem : ∀ {pid p}, (pid, p) ∈ (c.remove key).processes →
      (pid, p) ∈ c.processes ∨ p = .removal { key } := by
    intro pid p here
    refine (mem_append.mp here).imp_right fun new => ?_
    cases mem_singleton.mp new
    rfl
  refine ⟨inv.wanted, inv.accounted.act (fun _ none => by cases none) removed, fun pid p here => ?_,
    fun pid r pid' r' here here' same => ?_, inv.begun, inv.unbegun, inv.stored,
    Nat.le_trans inv.next (Nat.le_succ _)⟩
  · rcases mem here with old | rfl
    · refine (inv.processes pid p old).imp_left ?_
      rintro ⟨r, rfl, follows⟩
      exact ⟨r, rfl, follows.begun, follows.layer, follows.learnt, follows.stands⟩
    · exact .inr ⟨_, rfl, unwanted⟩
  · rcases mem here with old | new
    · rcases mem here' with old' | new'
      · exact inv.alone pid r pid' r' old old' same
      · cases new'
    · cases new

end Copies

end Cache

section Tables

variable {settings : CacheSettings} {reply : String → Except SourceError Records} {l : Layer} {key key' : TableName}
  {table : String} {alone : Store}

theorem Layer.materialize_alone (made : l.materialize settings reply key table = .ok alone) :
    ∃ t : Table, alone.tables = [t] ∧ t.name = table := by
  unfold Layer.materialize at made
  split at made
  · cases made
  · exact Cache.writeTable_alone made

/-- Which table a run makes does not depend on the catalog and the schema of its object. -/
theorem Layer.materialize_of_same (same : key.table = key'.table)
    (made : l.materialize settings reply key table = .ok alone) : l.materialize settings reply key' table = .ok alone := by
  have sql : l.objectSql settings.backend key' = l.objectSql settings.backend key := by
    rw [Layer.objectSql, Layer.objectSql, same]
  unfold Layer.materialize Cache.writeTable at made ⊢
  rw [sql]
  split at made
  · cases made
  · dsimp only at made ⊢
    split at made
    · cases made
    · split at made
      · cases made
      · rename_i fits
        rw [if_neg fits]
        exact made

theorem Task.tableName_inj {id id' : Nat} (same : tableName key id = tableName key' id') :
    key.table = key'.table ∧ id = id' := by
  have alike : sameName (tableName key id) (tableName key' id') = true := by
    rw [same]
    exact sameName_self _
  cases id_of_sameName alike
  refine ⟨?_, rfl⟩
  rw [tableName, tableName, String.append_left_inj, String.append_left_inj] at same
  exact same

end Tables

namespace Simulation

variable {s s' s'' : Simulation} {l : Layer} {before : Cache} {keys : List TableName} {key : TableName} {pid : Nat}

/-- Only the cache changes, and what the source remembers. -/
structure Continues (s s' : Simulation) : Prop where
  processor : s'.processor = s.processor
  sizeLimit : s'.sizeLimit = s.sizeLimit
  retryDelay : s'.retryDelay = s.retryDelay
  rules : s'.source.rules = s.source.rules
  closed : s'.source.closed = s.source.closed
  waiting : s'.waiting = s.waiting

theorem Continues.refl (s : Simulation) : s.Continues s := ⟨rfl, rfl, rfl, rfl, rfl, rfl⟩

theorem Continues.trans (first : s.Continues s') (second : s'.Continues s'') : s.Continues s'' where
  processor := second.processor.trans first.processor
  sizeLimit := second.sizeLimit.trans first.sizeLimit
  retryDelay := second.retryDelay.trans first.retryDelay
  rules := second.rules.trans first.rules
  closed := second.closed.trans first.closed
  waiting := second.waiting.trans first.waiting

theorem Continues.settings_eq (continues : s.Continues s') : s'.settings = s.settings := by
  unfold settings
  rw [continues.processor, continues.sizeLimit, continues.retryDelay]

theorem Continues.answer_eq (continues : s.Continues s') : s'.source.answer = s.source.answer := by
  unfold Source.answer
  rw [continues.rules]

/-- The source has an open gate, and nobody is left to wait at it. -/
def IsOpen (s : Simulation) : Prop := s.source.closed = false ∧ s.waiting = []

theorem Continues.isOpen (continues : s.Continues s') (isOpen : s.IsOpen) : s'.IsOpen :=
  ⟨continues.closed.trans isOpen.1, continues.waiting.trans isOpen.2⟩

theorem arrive_open (isOpen : s.IsOpen) (pid : Nat) (sql : String) :
    s.Continues (s.arrive pid sql) ∧ (s.arrive pid sql).cache = s.cache.answer pid (s.source.answer sql) := by
  have passed : (s.source.ask sql).pass? = some (s.source.ask sql) := by
    simp [Source.pass?, Source.ask, isOpen.1]
  unfold arrive
  simp only [passed]
  exact ⟨⟨rfl, rfl, rfl, rfl, rfl, rfl⟩, rfl⟩

/-- A deployment goes on. -/
structure Copies (s : Simulation) (l : Layer) (before : Cache) (keys : List TableName) (s' : Simulation) : Prop where
  continues : s.Continues s'
  copies : Cache.Copies s.settings s.source.answer l before keys s'.cache

theorem Reaches.accounted (reaches : s.Reaches s') (inv : Cache.Accounted {} s.cache) : Cache.Accounted {} s'.cache := by
  obtain ⟨_, actions, reached⟩ := reaches
  exact Cache.history_preserves (fun c action c' inv acted => inv.act (fun _ none => by cases none) acted) inv reached

theorem stepProcess_of_asking (isOpen : s.IsOpen) {r : Run} {sql : String} (asking : r.phase = .asking sql)
    (found : s.cache.process? pid = some (.run r)) : s.stepProcess pid = some (s.arrive pid sql) ∧
      (s.arrive pid sql).cache = s.cache.setProcess pid (.run { r with phase := .writing (s.source.answer sql) }) := by
  obtain ⟨task, key, layer, lock, phase⟩ := r
  cases asking
  refine ⟨?_, (arrive_open isOpen pid sql).2.trans ?_⟩
  · simp [stepProcess, found, isOpen.2]
  · simp [Cache.answer, found]

theorem stepProcess_of_step (counted : s.cache.Counted) {p : Process} (member : (pid, p) ∈ s.cache.processes)
    (other : p.isAsking = false) : s.stepProcess pid = (s.cache.step s.settings pid).map fun cache => { s with cache } := by
  have found := Cache.process?_of_mem counted.pids member
  unfold stepProcess
  split
  · rename_i asking
    cases found.symm.trans asking
    cases other
  · rfl

theorem Copies.step {s₁ s₂ : Simulation} (isOpen : s.IsOpen) (inv : Copies s l before keys s₁)
    (stepped : s₁.stepProcess pid = some s₂) : Copies s l before keys s₂ := by
  obtain ⟨continues, copies⟩ := inv
  have accounted := (stepProcess_reaches stepped).accounted copies.accounted
  have counted := copies.accounted.counted
  obtain ⟨p, member⟩ : ∃ p, (pid, p) ∈ s₁.cache.processes := by
    cases stepProcess_goes counted stepped with
    | moves member _ _ _ => exact ⟨_, member⟩
    | waits member _ _ _ _ => exact ⟨_, member⟩
  have found := Cache.process?_of_mem counted.pids member
  have going : ∀ {c : Cache}, s₁.Continues { s₁ with cache := c } := ⟨rfl, rfl, rfl, rfl, rfl, rfl⟩
  rcases copies.processes pid p member with ⟨r, rfl, follows⟩ | ⟨r, rfl, _⟩
  · have reserved : ∀ answer, r.phase = .writing answer → s₁.cache.store.table? r.table = none := by
      intro answer writing
      refine copies.accounted.table?_reserved (mem_flatMap.mpr ⟨_, member, ?_⟩)
      simp [Process.reserves, writing]
    cases other : Process.isAsking (.run r) with
    | true =>
      obtain ⟨sql, asking⟩ : ∃ sql, r.phase = .asking sql := by
        unfold Process.isAsking at other
        split at other
        · rename_i same
          cases same
          exact ⟨_, rfl⟩
        · cases other
      have isOpen₁ := continues.isOpen isOpen
      obtain ⟨arrives, next⟩ := stepProcess_of_asking isOpen₁ asking found
      cases arrives.symm.trans stepped
      refine ⟨continues.trans (arrive_open isOpen₁ pid sql).1, copies.moves member ?_ ?_ accounted ?_⟩
      · rw [next]
        exact .goes (s₁.cache.alters_nothing r.key) (.run (.pass (asking ▸ .answer sql _)))
      · have learnt := follows.learnt
        simp only [Run.Learnt, asking] at learnt
        have learnt' : Run.Learnt s.settings s.source.answer { r with phase := .writing (s.source.answer sql) } :=
          ⟨sql, learnt, rfl⟩
        rw [next, continues.answer_eq]
        exact fun _ r' _ => Cache.learnt_setProcess learnt' r'
      · rw [next]
        exact copies.stored
    | false =>
      rw [stepProcess_of_step counted member other] at stepped
      obtain ⟨c, proceeds, rfl⟩ := Option.map_eq_some_iff.mp stepped
      rw [Cache.step, found, continues.settings_eq] at proceeds
      obtain ⟨learnt, stored⟩ := Cache.stepRun_learnt proceeds follows.learnt reserved
      refine ⟨continues.trans going, copies.moves member (Cache.stepRun_steps proceeds).moves
        (fun _ r' _ => learnt r') accounted fun t here => ?_⟩
      rcases stored t here with old | ⟨alone, made, single⟩
      · exact copies.stored t old
      · rw [Run.outcome, follows.layer] at made
        exact .inr ⟨r.key, r.task, alone, copies.next_le_task follows, made, single⟩
  · rw [stepProcess_of_step counted member rfl] at stepped
    obtain ⟨c, proceeds, rfl⟩ := Option.map_eq_some_iff.mp stepped
    rw [Cache.step, found] at proceeds
    exact ⟨continues.trans going, copies.moves member (Cache.stepRemoval_steps proceeds).moves
      (fun _ _ run => by cases run) accounted fun t here => copies.stored t (Cache.stepRemoval_store proceeds t here)⟩

theorem Copies.remove (isOpen : s.IsOpen) (inv : Copies s l before keys s') (unwanted : key ∉ l.preAggregated) :
    Copies s l before keys (s'.remove key) := by
  have kept : ∀ s₁ pid s₂, Copies s l before keys s₁ → s₁.stepProcess pid = some s₂ → Copies s l before keys s₂ :=
    fun _ _ _ inv => inv.step isOpen
  have begun : Copies s l before keys { s' with cache := s'.cache.remove key } :=
    ⟨inv.continues.trans ⟨rfl, rfl, rfl, rfl, rfl, rfl⟩, inv.copies.remove unwanted⟩
  unfold Simulation.remove
  dsimp only
  split
  · exact steps_preserves kept (drive_preserves kept begun _) _
  · exact drive_preserves kept begun _

theorem Copies.foldl_remove (isOpen : s.IsOpen) {forgotten : List TableName} (inv : Copies s l before keys s')
    (unwanted : ∀ key ∈ forgotten, key ∉ l.preAggregated) :
    Copies s l before keys (forgotten.foldl Simulation.remove s') := by
  induction forgotten generalizing s' with
  | nil => exact inv
  | cons key forgotten ih =>
    obtain ⟨first, rest⟩ := forall_mem_cons.mp unwanted
    exact ih (inv.remove isOpen first) rest

theorem Copies.createAll {more : List TableName} (inv : Copies s s.processor.layer before keys s')
    (wanted : more ⊆ s.processor.layer.preAggregated) (distinct : more.Nodup) (new : ∀ key ∈ more, key ∉ keys)
    (created : s'.createAll more = .ok s'') : Copies s s.processor.layer before (more.reverse ++ keys) s'' := by
  induction more generalizing s' keys with
  | nil =>
    cases created
    exact inv
  | cons key more ih =>
    obtain ⟨first, rest⟩ := cons_subset.mp wanted
    obtain ⟨single, distinct⟩ := nodup_cons.mp distinct
    obtain ⟨newFirst, newRest⟩ := forall_mem_cons.mp new
    have layer : s'.processor.layer = s.processor.layer := congrArg Processor.layer inv.continues.processor
    have cacheable : s'.processor.layer.isCacheable key = true := by
      rw [layer]
      exact Layer.isCacheable_of_preAggregated first
    rw [Simulation.createAll, create_of_cacheable cacheable, layer] at created
    have begun : Copies s s.processor.layer before (key :: keys)
        { s' with cache := (s'.cache.addTask s.processor.layer key).2 } :=
      ⟨inv.continues.trans ⟨rfl, rfl, rfl, rfl, rfl, rfl⟩, inv.copies.addTask first newFirst⟩
    have others : ∀ other ∈ more, other ∉ key :: keys := by
      intro other late here
      rcases mem_cons.mp here with rfl | here
      · exact single late
      · exact newRest other late here
    have after := ih begun rest distinct others created
    rw [reverse_cons, append_assoc]
    exact after

/-- The gate is open, nothing goes on, and each table is accounted for. -/
structure AtRest (s : Simulation) : Prop where
  isOpen : s.IsOpen
  steady : s.cache.Steady
  idle : s.cache.processes = []
  accounted : Cache.Accounted {} s.cache

theorem AtRest.copies (rest : s.AtRest) (l : Layer) : Copies s l s.cache [] s := by
  refine ⟨.refl s, nil_subset _, rest.accounted, fun pid p here => ?_, fun pid r _ _ here => ?_,
    fun _ none => (by cases none), fun _ _ _ => rfl, fun _ => .inl, Nat.le_refl _⟩
  · rw [rest.idle] at here
    cases here
  · rw [rest.idle] at here
    cases here

/-- What a deployment leaves of an object with the task `t`: a new table, or the one that the object had. -/
structure Renewed (s s' : Simulation) (t : Task) : Prop where
  done : t.status = .done → s'.cache.lookup t.key = some (Task.tableName t.key t.id) ∧ ∃ alone,
    s.processor.layer.materialize s.settings s.source.answer t.key (Task.tableName t.key t.id) = .ok alone ∧
    s'.cache.store.table? (Task.tableName t.key t.id) = alone.table? (Task.tableName t.key t.id)
  failed : t.status = .failed → s'.cache.lookup t.key = s.cache.lookup t.key ∧
    (∃ e, s.processor.layer.materialize s.settings s.source.answer t.key (Task.tableName t.key t.id) = .error e ∧
      t.error = some (Task.failure t.key e)) ∧
    ∀ former, s.cache.lookup t.key = some former → s'.cache.store.table? former = s.cache.store.table? former

/-- The table that an object has got, as the store holds it. -/
theorem AtRest.stored_of_lookup (rest : s.AtRest) {table : String} (found : s.cache.lookup key = some table) :
    ∃ t ∈ s.cache.store.tables, t.name = table ∧ s.cache.store.table? table = some t := by
  have owned : table ∈ s.cache.tables.map (·.2) ++ s.cache.held :=
    mem_append_left _ (mem_map.mpr ⟨_, KeyMap.mem_of_get? found, rfl⟩)
  obtain ⟨t, stored, named⟩ := rest.accounted.table?_owned (fun _ none => by cases none) owned
  exact ⟨t, mem_of_find?_eq_some stored, named, stored⟩

theorem AtRest.number_lt (rest : s.AtRest) {t : Table} (stored : t ∈ s.cache.store.tables) {id : Nat}
    (named : t.name = Task.tableName key id) : id < s.cache.next := by
  obtain ⟨key', id', less, named'⟩ :=
    rest.accounted.balanced.numbered t.name (mem_append_left _ (rest.accounted.name_mem stored))
  have same : sameName (Task.tableName key id) (Task.tableName key' id') = true := by
    rw [← named, ← named']
    exact sameName_self t.name
  exact Task.id_of_sameName same ▸ less

theorem Copies.renewed (rest : s.AtRest) (rest' : s'.AtRest) (inv : Copies s s.processor.layer s.cache keys s')
    {t : Task} (begun : t.key ∈ keys) (latest : s'.task? t.key = some t) : s.Renewed s' t := by
  obtain ⟨t', found, _, new, tells⟩ := inv.copies.begun t.key begun
  cases found.symm.trans latest
  refine ⟨fun done => ?_, fun failed => ?_⟩
  · simp only [Task.Tells, done] at tells
    obtain ⟨mapped, alone, made⟩ := tells
    refine ⟨mapped, alone, made, ?_⟩
    obtain ⟨copy, stored, named, held⟩ := rest'.stored_of_lookup mapped
    rcases inv.copies.stored copy stored with old | ⟨key, id, alone', _, made', single⟩
    · exact absurd (rest.number_lt old named) (Nat.not_lt.mpr new)
    · obtain ⟨copy', single', named'⟩ := Layer.materialize_alone made'
      cases singleton_inj.mp (single.symm.trans single')
      obtain ⟨same, rfl⟩ := Task.tableName_inj (named'.symm.trans named)
      rw [named'.symm.trans named] at made'
      cases made.symm.trans (Layer.materialize_of_same same made')
      rw [held, Store.table?, single, ← named, List.find?_singleton, sameName_self]
      rfl
  · simp only [Task.Tells, failed] at tells
    obtain ⟨mapped, error⟩ := tells
    refine ⟨mapped, error, fun former known => ?_⟩
    obtain ⟨copy, stored, named, held⟩ := rest'.stored_of_lookup (mapped.trans known)
    rcases inv.copies.stored copy stored with old | ⟨key, id, alone', later, made', single⟩
    · rw [held, ← named]
      exact (rest.accounted.table?_of_mem old).symm
    · obtain ⟨copy', single', named'⟩ := Layer.materialize_alone made'
      cases singleton_inj.mp (single.symm.trans single')
      obtain ⟨kept, stored', same, _⟩ := rest.stored_of_lookup known
      exact absurd (rest.number_lt stored' (same.trans (named.symm.trans named'))) (Nat.not_lt.mpr later)

/-- A deployment of a cache at rest comes to its end, and the cache is at rest again. -/
theorem refresh_atRest (rest : s.AtRest) : ∃ tasks s', s.refresh = (.ok (some tasks), s') ∧
    tasks.map (·.key) = orderedKeys s.processor.layer.preAggregated ∧ Caches s.processor.layer (some tasks) s' ∧
    s'.AtRest ∧ s.Continues s' ∧ ∀ t ∈ tasks, s.Renewed s' t := by
  obtain ⟨answer, started, created, refreshed, steady, caches, ordered⟩ := refresh_steady rest.steady
  have unwanted : ∀ key ∈ s.forgotten, key ∉ s.processor.layer.preAggregated := by
    intro key member wanted
    have other := (mem_filter.mp member).2
    simp [mem_orderedKeys, wanted] at other
  have distinct : (orderedKeys s.processor.layer.preAggregated).Nodup :=
    (orderedKeys_perm s.processor.layer.preAggregated_nodup).nodup_iff.mpr s.processor.layer.preAggregated_nodup
  have begun := ((rest.copies s.processor.layer).foldl_remove rest.isOpen unwanted).createAll
    (fun key => mem_orderedKeys.mp) distinct (fun _ _ => not_mem_nil) created
  have copies := steps_preserves (fun _ _ _ inv => Copies.step rest.isOpen inv) begun started.cache.work
  have isOpen := copies.continues.isOpen rest.isOpen
  have idle : started.settle.cache.processes = [] :=
    (settle_isStuck begun.copies.accounted.counted).idle steady.wellRun.counted steady.wellRun.one isOpen.2
  have rest' : started.settle.AtRest := ⟨isOpen, steady, idle, copies.copies.accounted⟩
  cases answer with
  | none => exact absurd isOpen.2 (caches.awaited rfl)
  | some tasks =>
    have named := ordered tasks rfl
    refine ⟨tasks, started.settle, refreshed, named, caches, rest', copies.continues, fun t here => ?_⟩
    refine copies.renewed rest rest' ?_ ((caches.returned tasks rfl).2.2 t here).1
    rw [append_nil, mem_reverse, ← named]
    exact mem_map_of_mem here

end Simulation

end SemanticLayer
