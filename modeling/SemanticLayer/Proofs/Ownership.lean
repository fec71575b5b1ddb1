import SemanticLayer.Proofs.Turns

/-! # Tables and their owners

A table that a run has written is, at every moment of every history, the table of an object or in the hands
of one process: the run that is about to install it or to discard it, the run that has just put another one
in its place, or the removal that is about to drop it. So no table of an object is ever missing, and none is
left behind.
-/

namespace SemanticLayer

open List

namespace Cache

variable {settings : CacheSettings} {foreign : Store} {c c' : Cache}

theorem Accounted.quiet (inv : Accounted foreign c) (tables : c'.tables = c.tables) (store : c'.store = c.store)
    (processes : c'.processes = c.processes) (next : c'.next = c.next) : Accounted foreign c' := by
  obtain ⟨balanced, keys, pids, given⟩ := inv
  refine ⟨?_, tables ▸ keys, processes ▸ pids, ?_⟩
  · unfold held reserved
    rw [tables, store, processes, next]
    exact balanced
  · rw [processes, next]
    exact given

theorem Accounted.act (others : ∀ t ∈ foreign.tables, ∀ key id, sameName t.name (Task.tableName key id) = false)
    (inv : Accounted foreign c) {action : Action} (acted : c.act settings action = some c') : Accounted foreign c' := by
  cases action with
  | create layer key =>
    obtain ⟨⟨task, next⟩, created, rfl⟩ := Option.map_eq_some_iff.mp acted
    unfold createTask at created
    split at created
    · cases created
      exact inv.addTask others layer key
    · cases created
  | remove key =>
    cases acted
    exact inv.spawn others (.removal { key }) (Nat.le_refl _) (Nat.lt_succ_self _) rfl (.keep (Nat.le_succ _))
  | proceed pid =>
    obtain ⟨p, member, steps⟩ := step_steps acted
    exact inv.proceeds others member steps.proceeds
  | answer pid reply =>
    cases acted
    rcases c.answer_steps pid reply with same | ⟨r, member, steps⟩
    · rwa [same]
    · exact inv.proceeds others member steps.proceeds
  | goOff place =>
    obtain ⟨t, _, rfl⟩ := Option.map_eq_some_iff.mp acted
    exact inv.spawn others (.firing { kind := t.kind, key := t.key, layer := t.layer }) (Nat.le_refl _)
      (Nat.lt_succ_self _) rfl (.keep (Nat.le_succ _))
  | stop | setClock time =>
    cases acted
    exact inv.quiet rfl rfl rfl rfl

theorem history_accounted (others : ∀ t ∈ foreign.tables, ∀ key id, sameName t.name (Task.tableName key id) = false)
    {actions : List Action} (reached : history settings { store := foreign } actions = some c) :
    Accounted foreign c := by
  have start : Accounted foreign { store := foreign } := by
    refine ⟨⟨⟨[], (append_nil _).symm, .refl _⟩, .nil, ?_⟩, .nil, .nil, ?_⟩
    · intro name member
      cases member
    · intro entry member
      cases member
  exact history_preserves (fun c action c' inv acted => inv.act others acted) start reached

section

variable (inv : Accounted foreign c)

include inv

theorem Accounted.table?_owned
    (others : ∀ t ∈ foreign.tables, ∀ key id, sameName t.name (Task.tableName key id) = false) {table : String}
    (owned : table ∈ c.tables.map (·.2) ++ c.held) : ∃ t, c.store.table? table = some t ∧ t.name = table := by
  obtain ⟨made, split, names⟩ := inv.balanced.stored
  obtain ⟨t, here, named⟩ := mem_map.mp (names.mem_iff.mpr owned)
  have found : (c.store.table? table).isSome = true := by
    apply find?_isSome.mpr
    refine ⟨t, ?_, ?_⟩
    · rw [split]
      exact mem_append_right _ here
    · rw [named]
      exact sameName_self table
  obtain ⟨t', first⟩ := Option.isSome_iff_exists.mp found
  refine ⟨t', first, ?_⟩
  have same := find?_some (show c.store.tables.find? (sameName ·.name table) = some t' from first)
  have member : t' ∈ foreign.tables ++ made := split ▸ mem_of_find?_eq_some first
  rcases mem_append.mp member with old | new
  · obtain ⟨key, id, _, rfl⟩ := inv.balanced.numbered table (mem_append_left _ owned)
    rw [others t' old key id] at same
    cases same
  · by_contra different
    have apart := (pairwise_append.mp inv.balanced.apart).1.forall
      (names.mem_iff.mp (mem_map_of_mem new)) owned different
    rw [apart] at same
    cases same

theorem Accounted.owner_of_mem {t : Table} (stored : t ∈ c.store.tables) :
    t ∈ foreign.tables ∨ (∃ key, c.tables.get? key = some t.name) ∨
      ∃ pid p, (pid, p) ∈ c.processes ∧ t.name ∈ p.holds := by
  obtain ⟨made, split, names⟩ := inv.balanced.stored
  rw [split] at stored
  rcases mem_append.mp stored with old | new
  · exact .inl old
  · rcases mem_append.mp (names.mem_iff.mp (mem_map_of_mem new)) with mapped | held
    · obtain ⟨⟨key, table⟩, member, same⟩ := mem_map.mp mapped
      exact .inr (.inl ⟨key, same ▸ KeyMap.get?_of_mem inv.keys member⟩)
    · obtain ⟨⟨pid, p⟩, member, holds⟩ := mem_flatMap.mp held
      exact .inr (.inr ⟨pid, p, member, holds⟩)

end

/-- In every history, every table of an object is in the store; every table in the store was there before,
is the table of an object, or is in the hands of a run or a removal that goes on; and when only timers go
on, the tables that have been made are those of the objects. -/
theorem history_tables_owned (others : ∀ t ∈ foreign.tables, ∀ key id, sameName t.name (Task.tableName key id) = false)
    {actions : List Action} (reached : history settings { store := foreign } actions = some c) :
    (∀ key table, c.tables.get? key = some table → ∃ t, c.store.table? table = some t ∧ t.name = table) ∧
    (∀ t ∈ c.store.tables, t ∈ foreign.tables ∨ (∃ key, c.tables.get? key = some t.name) ∨
      ∃ pid p, (pid, p) ∈ c.processes ∧ t.name ∈ p.holds) ∧
    ((∀ pid p, (pid, p) ∈ c.processes → ∃ f, p = .firing f) →
      ∃ made, c.store.tables = foreign.tables ++ made ∧ (made.map (·.name)).Perm (c.tables.map (·.2))) := by
  have inv := history_accounted others reached
  refine ⟨?_, fun t stored => inv.owner_of_mem stored, ?_⟩
  · intro key table found
    apply inv.table?_owned others
    exact mem_append_left _ (mem_map.mpr ⟨_, KeyMap.mem_of_get? found, rfl⟩)
  · intro idle
    obtain ⟨made, split, names⟩ := inv.balanced.stored
    have nothing : c.held = [] := by
      apply flatMap_eq_nil_iff.mpr
      rintro ⟨pid, p⟩ member
      obtain ⟨f, rfl⟩ := idle pid p member
      rfl
    rw [nothing, append_nil] at names
    exact ⟨made, split, names⟩

def copiedOrders : Layer where
  manifest := { catalog := "mdl", schema := "test", models := [{ name := "Orders", refSql := some "select 1 as n" }] }
  checked := rfl

/-- Orders are cached once, and a second run has just put its table in the place of the first one. A table
of somebody else is in the store all the time. -/
theorem orders_replaced_owned : ∃ c t t', history ⟨.sqlite, 100, 0⟩ { store := ⟨[{ name := "notes", columns := [] }]⟩ }
        ([.create copiedOrders ⟨"mdl", "test", "Orders"⟩] ++ List.replicate 5 (.proceed 2) ++
          [.answer 2 (.ok ⟨[⟨"n", "integer"⟩], [[.int 1]]⟩)] ++ List.replicate 9 (.proceed 2) ++
          [.create copiedOrders ⟨"mdl", "test", "Orders"⟩] ++ List.replicate 5 (.proceed 6) ++
          [.answer 6 (.ok ⟨[⟨"n", "integer"⟩], [[.int 2]]⟩)] ++ List.replicate 2 (.proceed 6)) = some c ∧
      c.store.tables.map (·.name) =
        ["notes", "Orders_00000000000000000000000000000001", "Orders_00000000000000000000000000000005"] ∧
      c.tables.get? ⟨"mdl", "test", "Orders"⟩ = some "Orders_00000000000000000000000000000005" ∧
      c.store.table? "Orders_00000000000000000000000000000005" = some t ∧
      t' ∈ c.store.tables ∧ t'.name = "Orders_00000000000000000000000000000001" ∧
      ∃ pid p, (pid, p) ∈ c.processes ∧ t'.name ∈ p.holds := by
  let orders : TableName := ⟨"mdl", "test", "Orders"⟩
  let create : List Action := [.create copiedOrders orders]
  let answer (pid : Nat) (n : Int) : List Action := [.answer pid (.ok ⟨[⟨"n", "integer"⟩], [[.int n]]⟩)]
  let proceed (times pid : Nat) : List Action := replicate times (.proceed pid)
  let actions := create ++ proceed 5 2 ++ answer 2 1 ++ proceed 9 2 ++ create ++ proceed 5 6 ++ answer 6 2 ++
    proceed 2 6
  have run : (history ⟨.sqlite, 100, 0⟩ { store := ⟨[{ name := "notes", columns := [] }]⟩ } actions).map
      (fun c => (c.store.tables.map (·.name), c.tables)) =
      some (["notes", "Orders_00000000000000000000000000000001", "Orders_00000000000000000000000000000005"],
        [(orders, "Orders_00000000000000000000000000000005")]) := by
    decide +kernel
  obtain ⟨c, reached, same⟩ := Option.map_eq_some_iff.mp run
  obtain ⟨stored, mapped⟩ := Prod.mk.inj same
  have others : ∀ t ∈ [({ name := "notes", columns := [] } : Table)], ∀ key id,
      sameName t.name (Task.tableName key id) = false := by
    intro t here key id
    cases mem_singleton.mp here
    rw [← Bool.not_eq_true]
    intro same
    have lower : Text.lowerAscii "notes" = Text.lowerAscii (Task.tableName key id) := eq_of_beq same
    have underscore : '_' ∈ (Text.lowerAscii "notes").toList := by
      rw [lower, Task.tableName_lower]
      simp
    exact absurd underscore (by decide)
  obtain ⟨present, owned, _⟩ := history_tables_owned others reached
  have current : c.tables.get? orders = some "Orders_00000000000000000000000000000005" := by
    rw [mapped]
    rfl
  obtain ⟨t, found, _⟩ := present orders _ current
  obtain ⟨t', here, named⟩ : ∃ t' ∈ c.store.tables, t'.name = "Orders_00000000000000000000000000000001" := by
    apply mem_map.mp
    rw [stored]
    decide
  refine ⟨c, t, t', reached, stored, current, found, here, named, ?_⟩
  rcases owned t' here with old | ⟨key, other⟩ | held
  · cases mem_singleton.mp old
    exact absurd named (by decide)
  · rw [mapped, named] at other
    have last := (Prod.mk.inj (mem_singleton.mp (KeyMap.mem_of_get? other))).2
    exact absurd last (by decide)
  · exact held

end Cache

end SemanticLayer
