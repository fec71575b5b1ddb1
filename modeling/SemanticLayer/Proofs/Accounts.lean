import Mathlib.Data.List.Flatten
import Mathlib.Data.List.Pairwise
import Mathlib.Data.List.Perm.Basic
import SemanticLayer.Proofs.Keys
import SemanticLayer.Proofs.LocalTables

/-! # Accounts of tables

A process may hold tables, which it has to hand on or to drop, and reserve names, which it may still write
to. What all processes and objects claim together is kept apart, and a step of one process moves no more than
a single name: `Shift` lists the ways. Every one of them leaves the store with exactly the tables that are
owned.
-/

namespace SemanticLayer

open List

def Run.table (r : Run) : String := Task.tableName r.key r.task

namespace Cache

variable {settings : CacheSettings} {c : Cache} {pid other : Nat} {p p' q : Process} {r : Run}

theorem process?_of_mem (pids : (c.processes.map (·.1)).Nodup) (member : (pid, p) ∈ c.processes) :
    c.process? pid = some p :=
  find?_map_of_mem pids member

theorem mem_of_process? (found : c.process? pid = some p) : (pid, p) ∈ c.processes := mem_of_find?_map found

theorem mem_setProcess : (other, q) ∈ (c.setProcess pid p').processes ↔
    other ≠ pid ∧ (other, q) ∈ c.processes ∨ other = pid ∧ q = p' ∧ pid ∈ c.processes.map (·.1) := by
  unfold setProcess
  simp only [mem_map, Prod.exists]
  constructor
  · rintro ⟨number, p, member, same⟩
    split at same
    · rename_i here
      cases same
      exact .inr ⟨rfl, rfl, number, p, member, eq_of_beq here⟩
    · rename_i elsewhere
      cases same
      exact .inl ⟨by simpa using elsewhere, member⟩
  · rintro (⟨elsewhere, member⟩ | ⟨rfl, rfl, number, p, member, rfl⟩)
    · exact ⟨other, q, member, by rw [if_neg (by simpa using elsewhere)]⟩
    · exact ⟨number, p, member, by rw [if_pos (beq_self_eq_true _)]⟩

theorem setProcess_pids : (c.setProcess pid p').processes.map (·.1) = c.processes.map (·.1) := by
  unfold setProcess
  rw [map_map]
  refine map_congr_left fun entry _ => ?_
  by_cases same : entry.1 = pid <;> simp [same]

theorem mem_endProcess : (other, q) ∈ (c.endProcess pid).processes ↔ other ≠ pid ∧ (other, q) ∈ c.processes := by
  simp [endProcess, and_comm]

theorem processes_split (pids : (c.processes.map (·.1)).Nodup) (member : (pid, p) ∈ c.processes) :
    ∃ early late, c.processes = early ++ (pid, p) :: late ∧ (∀ entry ∈ early, entry.1 ≠ pid) ∧
      ∀ entry ∈ late, entry.1 ≠ pid := by
  obtain ⟨early, late, split⟩ := append_of_mem member
  rw [split, map_append, map_cons, nodup_middle, nodup_cons, mem_append, not_or] at pids
  exact ⟨early, late, split, fun entry here same => pids.1.1 (mem_map.mpr ⟨entry, here, same⟩),
    fun entry here same => pids.1.2 (mem_map.mpr ⟨entry, here, same⟩)⟩

theorem updateTask?_eq {key : TableName} {id : Nat} {t : Task} (found : c.tasks.get? key = some t) (named : t.id = id)
    (change : Task → Task) : c.updateTask? key id change = some { c with tasks := c.tasks.set key (change t) } := by
  unfold updateTask?
  rw [found]
  simp [named]

theorem isLatest_eq {key : TableName} {id : Nat} {t : Task} (found : c.tasks.get? key = some t)
    (named : t.id = id) : c.isLatest key id = true := by
  unfold isLatest
  rw [found]
  simp [named]

theorem phase_of_stepRun_none (stuck : c.stepRun settings pid r = none) :
    (∃ sql, r.phase = .asking sql) ∨ ∃ ticket, r.phase = .waiting ticket := by
  obtain ⟨task, key, layer, lock, phase⟩ := r
  cases phase with
  | asking sql => exact .inl ⟨sql, rfl⟩
  | waiting ticket => exact .inr ⟨ticket, rfl⟩
  | _ =>
    unfold stepRun at stuck
    dsimp only at stuck
    (repeat' split at stuck) <;> cases stuck

theorem apart_of_ids {key key' : TableName} {id id' : Nat} (different : id ≠ id') :
    sameName (Task.tableName key id) (Task.tableName key' id') = false := by
  rw [← Bool.not_eq_true]
  exact fun same => different (Task.id_of_sameName same)

end Cache

/-- The tables in the store that the process has to hand on or to drop. -/
def Process.holds : Process → List String
  | .run r =>
    match r.phase with
    | .installing | .discarding => [r.table]
    | .replacing previous => previous.toList.filter (· != r.table)
    | _ => []
  | .firing _ => []
  | .removal r =>
    match r.phase with
    | .dropping table => [table]
    | _ => []

/-- The names that the process may still write to, or still drops to be safe. -/
def Process.reserves : Process → List String
  | .run r =>
    match r.phase with
    | .joining | .requesting | .waiting _ | .starting | .compiling | .asking _ | .writing _ | .cleaning _ =>
      [r.table]
    | _ => []
  | .firing _ | .removal _ => []

theorem sameName_self (name : String) : sameName name name = true := beq_self_eq_true _

instance : Std.Symm fun a b => sameName a b = false := ⟨fun _ _ => sameName_comm⟩

namespace KeyMap

variable {α : Type} {m : KeyMap α} {key : TableName} {value : α}

/-- The value of a key apart, the others are those that are left without it. -/
theorem values_perm (keys : m.keys.Nodup) (key : TableName) :
    (m.map (·.2)).Perm ((m.get? key).toList ++ (m.erase key).map (·.2)) := by
  induction m with
  | nil => exact .refl _
  | cons entry m ih =>
    obtain ⟨fresh, keys⟩ := nodup_cons.mp keys
    by_cases same : entry.1 = key
    · have absent : get? m key = none := by
        rw [← Option.not_isSome_iff_eq_none, ← mem_keys, ← same]
        exact fresh
      have first : get? (entry :: m) key = some entry.2 := by simp [get?, same]
      have rest : erase (entry :: m) key = erase m key := by simp [erase, same]
      rw [first, rest, erase_of_none absent]
      exact .refl _
    · have later : get? (entry :: m) key = get? m key := by simp [get?, same]
      have kept : erase (entry :: m) key = entry :: erase m key := by simp [erase, same]
      rw [later, kept, map_cons, map_cons]
      exact ((ih keys).cons _).trans perm_middle.symm

theorem mem_of_get? (found : m.get? key = some value) : (key, value) ∈ m := mem_of_find?_map found

theorem get?_of_mem (keys : m.keys.Nodup) (member : (key, value) ∈ m) : m.get? key = some value :=
  find?_map_of_mem keys member

theorem keys_erase_nodup (keys : m.keys.Nodup) (key : TableName) : (m.erase key).keys.Nodup :=
  keys.sublist (filter_sublist.map _)

theorem keys_set_nodup (keys : m.keys.Nodup) (key : TableName) (value : α) : (m.set key value).keys.Nodup := by
  refine nodup_cons.mpr ⟨?_, keys_erase_nodup keys key⟩
  have absent : key ∉ (m.erase key).keys := by simp [mem_keys]
  exact absent

end KeyMap

theorem Store.create_ok {s s' : Store} {name : String} {columns : List ColumnInfo} {rows : List (List Value)}
    (created : s.create name columns rows = .ok s') : ∃ t : Table, t.name = name ∧ s'.tables = s.tables ++ [t] := by
  cases free : s.table? name with
  | some t =>
    unfold create createEmpty at created
    rw [free] at created
    cases reserved : (Text.lowerAscii name).startsWith "sqlite_" <;> rw [reserved] at created <;> cases created
  | none =>
    rw [create_of_free free] at created
    cases alone : ({} : Store).create name columns rows with
    | error e =>
      rw [alone] at created
      cases created
    | ok made =>
      rw [alone] at created
      cases created
      obtain ⟨t, single, named⟩ := create_alone alone
      exact ⟨t, named, congrArg (s.tables ++ ·) single⟩

theorem Cache.writeTable_ok {c : Cache} {settings : CacheSettings} {key : TableName} {table : String}
    {answer : Except SourceError Records} {store : Store}
    (written : c.writeTable settings key table answer = .ok store) :
    ∃ t : Table, t.name = table ∧ store.tables = c.store.tables ++ [t] := by
  unfold writeTable at written
  cases answer with
  | error e => cases written
  | ok records =>
    dsimp only at written
    split at written
    · cases written
    · split at written
      · rename_i created
        cases written
        exact Store.create_ok created
      · cases written

/-! ## Accounts -/

/-- What a process shares with the others, and what it claims for itself. -/
structure Account where
  tables : KeyMap String
  store : Store
  held : List String
  reserved : List String
  next : Nat

/-- What a single step can do to the tables. -/
inductive Shift : Account → Account → Prop
  | keep {m s h r n n'} (later : n ≤ n') : Shift ⟨m, s, h, r, n⟩ ⟨m, s, h, r, n'⟩
  /-- A name is given up. -/
  | yield {m s r n} : Shift ⟨m, s, [], r, n⟩ ⟨m, s, [], [], n⟩
  /-- A task that is new claims the name it is going to write to. -/
  | claim {m s n n'} (key : TableName) (later : n < n') :
      Shift ⟨m, s, [], [], n⟩ ⟨m, s, [], [Task.tableName key n], n'⟩
  | write {m s s' n} (t : Table) (added : s'.tables = s.tables ++ [t]) :
      Shift ⟨m, s, [], [t.name], n⟩ ⟨m, s', [t.name], [], n⟩
  | install {m s n table} (key : TableName) :
      Shift ⟨m, s, [table], [], n⟩ ⟨m.set key table, s, (m.get? key).toList.filter (· != table), [], n⟩
  | unmap {m s n table} (key : TableName) (found : m.get? key = some table) :
      Shift ⟨m, s, [], [], n⟩ ⟨m.erase key, s, [table], [], n⟩
  | drop {m s n table} : Shift ⟨m, s, [table], [], n⟩ ⟨m, s.drop table, [], [], n⟩
  /-- What was never written is dropped to be safe. -/
  | clean {m s n table} : Shift ⟨m, s, [], [table], n⟩ ⟨m, s.drop table, [], [], n⟩

/-- Where `foreign` tables were in the store from the start, the others are those that are owned. No two of
the names that are owned or reserved are the same to the store. -/
structure Balanced (foreign store : List Table) (owned reserved : List String) (next : Nat) : Prop where
  stored : ∃ made, store = foreign ++ made ∧ (made.map (·.name)).Perm owned
  apart : (owned ++ reserved).Pairwise fun a b => sameName a b = false
  numbered : ∀ name ∈ owned ++ reserved, ∃ key id, id < next ∧ name = Task.tableName key id

namespace Balanced

variable {foreign store : List Table} {owned owned' reserved reserved' : List String} {next next' : Nat}
  {table : String}

theorem perm (inv : Balanced foreign store owned reserved next) (same : owned.Perm owned')
    (same' : reserved.Perm reserved') : Balanced foreign store owned' reserved' next := by
  obtain ⟨⟨made, split, names⟩, apart, numbered⟩ := inv
  refine ⟨⟨made, split, names.trans same⟩, ?_, ?_⟩
  · exact ((same.append same').pairwise_iff sameName_comm).mp apart
  · intro name member
    exact numbered name ((same.append same').mem_iff.mpr member)

theorem mono (inv : Balanced foreign store owned reserved next) (later : next ≤ next') :
    Balanced foreign store owned reserved next' := by
  refine ⟨inv.stored, inv.apart, fun name member => ?_⟩
  obtain ⟨key, id, small, named⟩ := inv.numbered name member
  exact ⟨key, id, Nat.lt_of_lt_of_le small later, named⟩

theorem yield (names : List String) (inv : Balanced foreign store owned (names ++ reserved) next) :
    Balanced foreign store owned reserved next := by
  have fewer : (owned ++ reserved).Sublist (owned ++ (names ++ reserved)) :=
    (Sublist.refl owned).append (sublist_append_right names reserved)
  exact ⟨inv.stored, inv.apart.sublist fewer, fun name member => inv.numbered name (fewer.subset member)⟩

theorem claim (inv : Balanced foreign store owned reserved next) (key : TableName) (later : next < next') :
    Balanced foreign store owned (Task.tableName key next :: reserved) next' := by
  have fresh : ∀ name ∈ owned ++ reserved, sameName (Task.tableName key next) name = false := by
    intro name member
    obtain ⟨key', id, small, rfl⟩ := inv.numbered name member
    exact Cache.apart_of_ids (Nat.ne_of_gt small)
  refine ⟨inv.stored, ?_, ?_⟩
  · rw [perm_middle.pairwise_iff sameName_comm, pairwise_cons]
    exact ⟨fresh, inv.apart⟩
  · intro name member
    rcases mem_cons.mp (perm_middle.mem_iff.mp member) with rfl | old
    · exact ⟨key, next, later, rfl⟩
    · exact (inv.mono (Nat.le_of_lt later)).numbered name old

theorem write {t : Table} (inv : Balanced foreign store owned (t.name :: reserved) next) :
    Balanced foreign (store ++ [t]) (t.name :: owned) reserved next := by
  obtain ⟨⟨made, split, names⟩, apart, numbered⟩ := inv
  refine ⟨⟨made ++ [t], ?_, ?_⟩, ?_, ?_⟩
  · rw [split, append_assoc]
  · rw [map_append]
    exact (perm_append_singleton t.name _).trans (names.cons t.name)
  · exact (perm_middle.pairwise_iff sameName_comm).mp apart
  · intro name member
    exact numbered name (perm_middle.mem_iff.mpr member)

theorem drop (inv : Balanced foreign store owned reserved next)
    (others : ∀ t ∈ foreign, ∀ key id, sameName t.name (Task.tableName key id) = false) (key : TableName)
    (id : Nat) : Balanced foreign (store.filter fun t => !sameName t.name (Task.tableName key id))
      (owned.filter fun name => !sameName name (Task.tableName key id)) reserved next := by
  obtain ⟨⟨made, split, names⟩, apart, numbered⟩ := inv
  have kept : foreign.filter (fun t => !sameName t.name (Task.tableName key id)) = foreign := by
    apply filter_eq_self.mpr
    intro t member
    simp [others t member key id]
  have fewer : (owned.filter (fun name => !sameName name (Task.tableName key id)) ++ reserved).Sublist
      (owned ++ reserved) := filter_sublist.append (.refl _)
  refine ⟨⟨made.filter fun t => !sameName t.name (Task.tableName key id), ?_, ?_⟩, apart.sublist fewer, ?_⟩
  · rw [split, filter_append, kept]
  · have filtered := names.filter fun name => !sameName name (Task.tableName key id)
    rw [filter_map] at filtered
    exact filtered
  · intro name member
    exact numbered name (fewer.subset member)

theorem filter_apart {names : List String} (apart : ∀ name ∈ names, sameName table name = false) :
    names.filter (fun name => !sameName name table) = names := by
  apply filter_eq_self.mpr
  intro name member
  simp [sameName_comm (apart name member)]

theorem drop_owned (inv : Balanced foreign store (table :: owned) reserved next)
    (others : ∀ t ∈ foreign, ∀ key id, sameName t.name (Task.tableName key id) = false) :
    Balanced foreign (store.filter fun t => !sameName t.name table) owned reserved next := by
  obtain ⟨key, id, _, rfl⟩ := inv.numbered table mem_cons_self
  have apart := (pairwise_cons.mp inv.apart).1
  have dropped := inv.drop others key id
  rw [filter_cons, sameName_self, filter_apart fun name member => apart name (mem_append_left _ member)] at dropped
  exact dropped

theorem drop_reserved (inv : Balanced foreign store owned (table :: reserved) next)
    (others : ∀ t ∈ foreign, ∀ key id, sameName t.name (Task.tableName key id) = false) :
    Balanced foreign (store.filter fun t => !sameName t.name table) owned reserved next := by
  obtain ⟨key, id, _, rfl⟩ := inv.numbered table (mem_append_right _ mem_cons_self)
  have apart := (pairwise_cons.mp ((perm_middle.pairwise_iff sameName_comm).mp inv.apart)).1
  have dropped := inv.drop others key id
  rw [filter_apart fun name member => apart name (mem_append_left _ member)] at dropped
  exact dropped.yield [_]

end Balanced

theorem Shift.next_le {a a' : Account} (shift : Shift a a') : a.next ≤ a'.next := by
  cases shift with
  | keep later => exact later
  | claim key later => exact Nat.le_of_lt later
  | _ => exact Nat.le_refl _

/-- A single step keeps the books in balance, whatever `held` and `reserved` are claimed by others. -/
theorem Shift.balanced {foreign : List Table} {held reserved : List String} {a a' : Account} (shift : Shift a a')
    (others : ∀ t ∈ foreign, ∀ key id, sameName t.name (Task.tableName key id) = false) (keys : a.tables.keys.Nodup)
    (inv : Balanced foreign a.store.tables (a.held ++ a.tables.map (·.2) ++ held) (a.reserved ++ reserved) a.next) :
    Balanced foreign a'.store.tables (a'.held ++ a'.tables.map (·.2) ++ held) (a'.reserved ++ reserved) a'.next ∧
      a'.tables.keys.Nodup := by
  cases shift with
  | keep later => exact ⟨inv.mono later, keys⟩
  | yield => exact ⟨inv.yield _, keys⟩
  | claim key later => exact ⟨inv.claim key later, keys⟩
  | write t added =>
    refine ⟨?_, keys⟩
    dsimp only
    rw [added]
    exact inv.write
  | @install m s n table key =>
    refine ⟨inv.perm ?_ (.refl _), KeyMap.keys_set_nodup keys key table⟩
    -- the former table of the object is not the new one, as both were owned before
    have other : (m.get? key).toList.filter (· != table) = (m.get? key).toList := by
      apply filter_eq_self.mpr
      intro former found
      have mapped : former ∈ m.map (·.2) :=
        (KeyMap.values_perm keys key).mem_iff.mpr (mem_append_left _ found)
      have apart := (pairwise_cons.mp inv.apart).1 former (mem_append_left _ (mem_append_left _ mapped))
      rw [bne_iff_ne]
      rintro rfl
      rw [sameName_self] at apart
      cases apart
    apply Perm.append_right
    dsimp only
    rw [other]
    calc table :: m.map (·.2)
      _ |>.Perm (table :: ((m.get? key).toList ++ (m.erase key).map (·.2))) := (KeyMap.values_perm keys key).cons _
      _ |>.Perm ((m.get? key).toList ++ table :: (m.erase key).map (·.2)) := perm_middle.symm
  | @unmap m s n table key found =>
    refine ⟨inv.perm ?_ (.refl _), KeyMap.keys_erase_nodup keys key⟩
    have values := KeyMap.values_perm keys key
    rw [found] at values
    exact values.append_right held
  | drop => exact ⟨inv.drop_owned others, keys⟩
  | clean => exact ⟨inv.drop_reserved others, keys⟩

namespace Cache

variable {settings : CacheSettings} {foreign : Store} {c c' core : Cache} {pid : Nat} {p : Process}

def held (c : Cache) : List String := c.processes.flatMap (·.2.holds)

def reserved (c : Cache) : List String := c.processes.flatMap (·.2.reserves)

/-- The share of a process in a cache; nobody's share claims nothing. -/
def account (c : Cache) (p : Option Process) : Account :=
  ⟨c.tables, c.store, p.elim [] Process.holds, p.elim [] Process.reserves, c.next⟩

/-- No two processes have the same number, and no number is given away twice. -/
structure Counted (c : Cache) : Prop where
  pids : (c.processes.map (·.1)).Nodup
  given : ∀ pid p, (pid, p) ∈ c.processes → pid < c.next

theorem Counted.spawn (inv : Counted c) {number : Nat} (later : c.next ≤ number) (next : number < c'.next)
    (processes : c'.processes = c.processes ++ [(number, p)]) : Counted c' := by
  constructor
  · rw [processes, map_append, nodup_append]
    refine ⟨inv.pids, nodup_singleton _, ?_⟩
    rintro pid old new here rfl
    obtain ⟨entry, found, rfl⟩ := mem_map.mp old
    have small : entry.1 < c.next := inv.given entry.1 entry.2 found
    have last : entry.1 = number := mem_singleton.mp here
    omega
  · intro pid q member
    rw [processes] at member
    rcases mem_append.mp member with old | last
    · have small := inv.given pid q old
      omega
    · cases mem_singleton.mp last
      exact next

theorem Counted.addTask (inv : Counted c) (layer : Layer) (key : TableName) : Counted (c.addTask layer key).2 :=
  inv.spawn (Nat.le_succ _) (Nat.lt_succ_self _) rfl

theorem Counted.endProcess (inv : Counted c) (pid : Nat) : Counted (c.endProcess pid) where
  pids := inv.pids.sublist (filter_sublist.map _)
  given other q member := inv.given other q (mem_endProcess.mp member).2

theorem Counted.setProcess (inv : Counted c) (pid : Nat) (q : Process) : Counted (c.setProcess pid q) := by
  constructor
  · rw [setProcess_pids]
    exact inv.pids
  · intro other q' member
    rcases mem_setProcess.mp member with ⟨_, old⟩ | ⟨rfl, _, known⟩
    · exact inv.given other q' old
    · obtain ⟨entry, found, rfl⟩ := mem_map.mp known
      exact inv.given entry.1 entry.2 found

theorem Counted.later (inv : Counted c) (processes : c'.processes = c.processes) (next : c.next ≤ c'.next) :
    Counted c' := by
  constructor
  · rw [processes]
    exact inv.pids
  · intro pid p member
    rw [processes] at member
    exact Nat.lt_of_lt_of_le (inv.given pid p member) next

/-- Every table has one owner, and processes have different numbers. -/
structure Accounted (foreign : Store) (c : Cache) : Prop where
  balanced : Balanced foreign.tables c.store.tables (c.tables.map (·.2) ++ c.held) c.reserved c.next
  keys : c.tables.keys.Nodup
  pids : (c.processes.map (·.1)).Nodup
  given : ∀ entry ∈ c.processes, entry.1 < c.next

theorem Accounted.counted (inv : Accounted foreign c) : Counted c := ⟨inv.pids, fun pid p => inv.given (pid, p)⟩

theorem processes_perm (pids : (c.processes.map (·.1)).Nodup) (member : (pid, p) ∈ c.processes) :
    c.processes.Perm ((pid, p) :: (c.endProcess pid).processes) := by
  obtain ⟨early, late, split, before, behind⟩ := processes_split pids member
  have kept : ∀ entries : List (Nat × Process), (∀ entry ∈ entries, entry.1 ≠ pid) →
      entries.filter (·.1 != pid) = entries :=
    fun entries others => filter_eq_self.mpr fun entry here => by simpa using others entry here
  have rest : (c.endProcess pid).processes = early ++ late := by
    simp [endProcess, split, kept early before, kept late behind]
  rw [rest, split]
  exact perm_middle

theorem endProcess_setProcess (q : Process) :
    ((c.setProcess pid q).endProcess pid).processes = (c.endProcess pid).processes := by
  unfold setProcess endProcess
  dsimp only
  induction c.processes with
  | nil => rfl
  | cons entry entries ih =>
    simp only [beq_iff_eq] at ih
    by_cases same : entry.1 = pid <;> simp [same, ih]

theorem setProcess_perm (pids : (c.processes.map (·.1)).Nodup) (member : (pid, p) ∈ c.processes) (q : Process) :
    (c.setProcess pid q).processes.Perm ((pid, q) :: (c.endProcess pid).processes) := by
  rw [← endProcess_setProcess q]
  apply processes_perm
  · rw [setProcess_pids]
    exact pids
  · exact mem_setProcess.mpr (.inr ⟨rfl, rfl, mem_map.mpr ⟨_, member, rfl⟩⟩)

theorem claims_perm {mine : Option (Nat × Process)} {processes rest : List (Nat × Process)}
    (split : processes.Perm (mine.toList ++ rest)) (claims : Process → List String) :
    (processes.flatMap (claims ·.2)).Perm ((mine.map (·.2)).elim [] claims ++ rest.flatMap (claims ·.2)) := by
  refine (split.flatMap_right _).trans ?_
  rw [flatMap_append]
  apply Perm.append_right
  cases mine <;> simp

/-- One process is replaced by another, and a shift makes the account of the one that of the other. -/
theorem Accounted.shift {rest : List (Nat × Process)} (inv : Accounted foreign c) (old new : Option (Nat × Process))
    (others : ∀ t ∈ foreign.tables, ∀ key id, sameName t.name (Task.tableName key id) = false)
    (before : c.processes.Perm (old.toList ++ rest)) (after : c'.processes.Perm (new.toList ++ rest))
    (shift : Shift (c.account (old.map (·.2))) (c'.account (new.map (·.2)))) (counted : Counted c') :
    Accounted foreign c' := by
  have apart : ∀ (m : List String) (h h' : List String), (m ++ (h ++ h')).Perm (h ++ m ++ h') := by
    intro m h h'
    rw [append_assoc]
    exact perm_append_comm_assoc m h h'
  have start := inv.balanced.perm (((claims_perm before Process.holds).append_left _).trans (apart _ _ _))
    (claims_perm before Process.reserves)
  obtain ⟨final, keys⟩ := shift.balanced others inv.keys start
  refine ⟨final.perm ?_ (claims_perm after Process.reserves).symm, keys, counted.pids,
    fun entry => counted.given entry.1 entry.2⟩
  exact (apart _ _ _).symm.trans ((claims_perm after Process.holds).symm.append_left _)

/-- How a step of a process changes the cache. -/
inductive Proceeds (pid : Nat) (p : Process) (c c' : Cache) : Prop where
  | goes (core : Cache) (q : Process) (same : core.processes = c.processes)
      (shift : Shift (c.account p) (core.account q)) (next : c' = core.setProcess pid q)
  | ends (core : Cache) (same : core.processes = c.processes) (shift : Shift (c.account p) (core.account none))
      (next : c' = core.endProcess pid)
  | begins (layer : Layer) (key : TableName) (shift : Shift (c.account p) (c.account none))
      (next : c' = ((c.endProcess pid).addTask layer key).2)

section

variable (inv : Accounted foreign c)
  (others : ∀ t ∈ foreign.tables, ∀ key id, sameName t.name (Task.tableName key id) = false)

include inv others

theorem Accounted.spawn {number : Nat} (p : Process) (later : c.next ≤ number) (next : number < c'.next)
    (processes : c'.processes = c.processes ++ [(number, p)])
    (shift : Shift (c.account none) (c'.account p)) : Accounted foreign c' := by
  refine inv.shift none (some (number, p)) others (.refl _) ?_ shift (inv.counted.spawn later next processes)
  rw [processes]
  exact perm_append_singleton _ _

theorem Accounted.addTask (layer : Layer) (key : TableName) : Accounted foreign (c.addTask layer key).2 := by
  apply inv.spawn others (.run { task := c.next, key, layer }) (Nat.le_succ c.next) (Nat.lt_succ_self _) rfl
  exact .claim key (Nat.lt_succ_of_lt (Nat.lt_succ_self _))

theorem Accounted.goes {q : Process} (member : (pid, p) ∈ c.processes) (same : core.processes = c.processes)
    (shift : Shift (c.account p) (core.account q)) : Accounted foreign (core.setProcess pid q) := by
  have ended : (core.endProcess pid).processes = (c.endProcess pid).processes := by
    simp only [endProcess, same]
  refine inv.shift (some (pid, p)) (some (pid, q)) others (processes_perm inv.pids member) ?_ shift
    ((inv.counted.later same shift.next_le).setProcess pid q)
  rw [← ended]
  exact setProcess_perm (same ▸ inv.pids) (same ▸ member) q

theorem Accounted.ends (member : (pid, p) ∈ c.processes) (same : core.processes = c.processes)
    (shift : Shift (c.account p) (core.account none)) : Accounted foreign (core.endProcess pid) := by
  have ended : (core.endProcess pid).processes = (c.endProcess pid).processes := by
    simp only [endProcess, same]
  exact inv.shift (some (pid, p)) none others (processes_perm inv.pids member) (.of_eq ended) shift
    ((inv.counted.later same shift.next_le).endProcess pid)

theorem Accounted.proceeds (member : (pid, p) ∈ c.processes) (proceeds : Proceeds pid p c c') :
    Accounted foreign c' := by
  cases proceeds with
  | goes core q same shift next =>
    subst next
    exact inv.goes others member same shift
  | ends core same shift next =>
    subst next
    exact inv.ends others member same shift
  | begins layer key shift next =>
    subst next
    exact (inv.ends others member rfl shift).addTask others layer key

end

end Cache

end SemanticLayer
