import SemanticLayer.Proofs.Closure
import SemanticLayer.Proofs.TableQuery

/-! # Pointing entries at cache tables

An entry is replaced exactly if it bears the name of an object that holds data and has a cache table.
This goes by the name alone, so an entry that the query brought along under such a name is replaced as
well. All other entries keep their definitions.
-/

namespace SemanticLayer

open Sql List
open With (names nameOf)

variable {table : String}

namespace Context

variable {c : Context} {q q' : Query}

section Substitution

variable {lookup : CacheLookup} {cte cte' : Cte Query}

theorem cacheUse_eq_keep_iff : c.cacheUse lookup cte = .keep ↔ ¬c.layer.IsData (nameOf cte) := by
  unfold cacheUse Layer.IsData
  dsimp only
  cases c.layer.kind? (nameOf cte) with
  | none => simp
  | some kind => cases kind <;> grind

/-- An entry is to read a cache table: it bears the name of an object with data that has the table,
    and if that is a metric, it shows all dimensions. -/
def UsesTable (c : Context) (lookup : CacheLookup) (cte : Cte Query) (table : String) : Prop :=
  lookup (c.layer.qualified (nameOf cte)) = some table ∧
    (c.layer.kind? (nameOf cte) = some .model ∨ c.layer.kind? (nameOf cte) = some .cumulativeMetric ∨
      c.layer.kind? (nameOf cte) = some .metric ∧
        ∃ m, c.layer.metric? (nameOf cte) = some m ∧ coversDimensions m cte.query = true)

theorem cacheUse_eq_table_iff : c.cacheUse lookup cte = .table table ↔ c.UsesTable lookup cte table := by
  unfold cacheUse UsesTable
  dsimp only
  cases c.layer.kind? (nameOf cte) with
  | none => simp
  | some kind => cases kind <;> grind

theorem lookup_of_cacheUse (used : c.cacheUse lookup cte = .table table) :
    lookup (c.layer.qualified (nameOf cte)) = some table := by
  exact (cacheUse_eq_table_iff.mp used).1

theorem useCache_eq_ok (used : c.useCache lookup cte = .ok cte') : cte'.name = cte.name ∧
    ((∃ table, c.cacheUse lookup cte = .table table ∧ readTable table = .ok cte'.query) ∨
      (∀ table, c.cacheUse lookup cte ≠ .table table) ∧ cte' = cte) := by
  unfold useCache at used
  cases use : c.cacheUse lookup cte with
  | table table =>
    rw [use] at used
    dsimp only at used
    cases read : readTable table with
    | error e => rw [read] at used; cases used
    | ok body =>
      rw [read] at used
      cases used
      exact ⟨rfl, .inl ⟨table, rfl, read⟩⟩
  | keep | uncached =>
    rw [use] at used
    cases used
    exact ⟨rfl, .inr ⟨fun _ same => (nomatch same), rfl⟩⟩

end Substitution

section Stage

variable {b : Backend} {served : Query}

/-- What pointing entries at cache tables does: each entry is pointed at its table, if it is to use
    one, and entries of objects that are read no more are dropped. -/
structure CacheStage (c : Context) (lookup : CacheLookup) (used : List (Cte Query)) (a : Analysis)
    (q q' : Query) : Prop where
  uses : Forall₂ (fun cte cte' => c.useCache lookup cte = .ok cte') q.ctes used
  prunes : With.Pruned c.layer { q with ctes := used } q'
  analyzed : c.analyze q' = .ok a

/-- Every entry is there with a table, and nothing but these tables is read. -/
structure FullyCached (c : Context) (lookup : CacheLookup) (a : Analysis) (q q' : Query) : Prop where
  cached : ∀ cte ∈ q.ctes, nameOf cte ∈ names q' → c.cacheUse lookup cte ≠ .uncached
  physical : ∀ table ∈ a.physicalTables, ∃ cte ∈ q.ctes, ∃ name, c.cacheUse lookup cte = .table name ∧
    table = ⟨c.session.catalog, c.session.schema, name⟩

variable {lookup : CacheLookup} {used : List (Cte Query)} {a : Analysis} {cte cte' : Cte Query}

theorem compileCached_stage (c : Context) (lookup : CacheLookup) (q : Query) :
    Judgement.returns.holds (c.compileCached lookup q) fun r =>
      ∃ used a, c.CacheStage lookup used a q r.1 ∧ (r.2 = true → c.FullyCached lookup a q r.1) := by
  have use : ∀ cte, Judgement.returns.holds (c.useCache lookup cte) fun cte' =>
      c.useCache lookup cte = .ok cte' := fun _ _ h => h
  have analyzed : ∀ q, Judgement.returns.holds (c.analyze q) fun a => c.analyze q = .ok a :=
    fun _ _ h => h
  refine Judgement.returns_bind (Judgement.returns.mapM use q.ctes) fun used uses =>
    Judgement.returns_bind (analyzed _) fun a analyzed => Judgement.returns.pure ?_
  refine ⟨used, a, ⟨uses, With.prune_pruned _ _, analyzed⟩, fun full => ?_⟩
  simp only [Bool.and_eq_true, Bool.not_eq_true', any_eq_false, all_eq_true] at full
  obtain ⟨⟨_, cached⟩, physical⟩ := full
  refine ⟨fun cte member present uncached => ?_, fun table found => ?_⟩
  · refine cached (nameOf cte) (mem_map_of_mem (mem_filter.mpr ⟨member, ?_⟩)) (With.has_iff.mpr present)
    rw [uncached]
    rfl
  · obtain ⟨cte, member, same⟩ := mem_filterMap.mp (contains_iff_mem.mp (physical table found))
    split at same
    · rename_i name used
      cases same
      exact ⟨cte, member, name, used, rfl⟩
    · cases same
    · cases same

theorem CacheStage.entry (stage : c.CacheStage lookup used a q q') (member : cte' ∈ q'.ctes) :
    ∃ cte ∈ q.ctes, c.useCache lookup cte = .ok cte' :=
  forall₂_exists stage.uses.flip cte' (stage.prunes.fewer.subset member)

/-- A query is served if it names nothing but objects, and the cache is enough for what it is compiled to. -/
theorem compileQueryCached_eq_some_iff : c.compileQueryCached b lookup q = .ok (some served) ↔
    ∃ a live cached, c.analyze q = .ok a ∧ a.physicalTables = [] ∧ c.compile q = .ok live ∧
      c.compileCached lookup live = .ok (cached, true) ∧ served = b.renameFunctions cached := by
  unfold compileQueryCached
  rw [bind_eq_ok_iff]
  constructor
  · rintro ⟨a, analyzed, rest⟩
    split at rest
    · cases rest
    · rename_i virtual
      obtain ⟨live, compiled, rest⟩ := bind_eq_ok_iff.mp rest
      obtain ⟨⟨cached, full⟩, pointed, rest⟩ := bind_eq_ok_iff.mp rest
      cases full with
      | false => cases rest
      | true =>
        cases rest
        exact ⟨a, live, cached, analyzed, by simpa using virtual, compiled, pointed, rfl⟩
  · rintro ⟨a, live, cached, analyzed, virtual, compiled, pointed, rfl⟩
    refine ⟨a, analyzed, ?_⟩
    rw [virtual]
    exact bind_eq_ok_iff.mpr ⟨live, compiled, bind_eq_ok_iff.mpr ⟨(cached, true), pointed, rfl⟩⟩

theorem compileQueryCached_eq_some (compiled : c.compileQueryCached b lookup q = .ok (some served)) :
    ∃ live cached, c.compile q = .ok live ∧ c.compileCached lookup live = .ok (cached, true) ∧
      served = b.renameFunctions cached := by
  obtain ⟨_, live, cached, _, _, compiled, pointed, same⟩ := compileQueryCached_eq_some_iff.mp compiled
  exact ⟨live, cached, compiled, pointed, same⟩

/-- What an entry of a compiled query is defined as in a query for the cache, where `f` renames
    functions. -/
structure Redefines (c : Context) (lookup : CacheLookup) (cte : Cte Query) (f : Query → Query)
    (q : Query) : Prop where
  /-- An entry that is named after no object stays. -/
  present : c.layer.kind? (nameOf cte) = none → nameOf cte ∈ names q
  replaced : ∀ cte' ∈ q.ctes, nameOf cte' = nameOf cte → ∀ table, c.UsesTable lookup cte table →
    ∃ body, readTable table = .ok body ∧ cte'.query = f body
  kept : ∀ cte' ∈ q.ctes, nameOf cte' = nameOf cte → (∀ table, ¬c.UsesTable lookup cte table) → cte'.query = f cte.query

theorem CacheStage.redefines (stage : c.CacheStage lookup used a q q') (member : cte ∈ q.ctes)
    (unique : ∀ other ∈ q.ctes, nameOf other = nameOf cte → other = cte) : c.Redefines lookup cte id q' := by
  have origin : ∀ cte' ∈ q'.ctes, nameOf cte' = nameOf cte → c.useCache lookup cte = .ok cte' := by
    intro cte' member' named
    obtain ⟨other, old, used⟩ := stage.entry member'
    have same : nameOf cte' = nameOf other := congrArg Ident.value (useCache_eq_ok used).1
    rw [unique other old (same.symm.trans named)] at used
    exact used
  refine ⟨fun unknown => ?_, fun cte' member' named table uses => ?_, fun cte' member' named others => ?_⟩
  · obtain ⟨cte', member', used⟩ := forall₂_exists stage.uses cte member
    have same : nameOf cte' = nameOf cte := congrArg Ident.value (useCache_eq_ok used).1
    rw [← same] at unknown ⊢
    exact With.mem_names_of_mem (stage.prunes.kept cte' member' (.inl unknown))
  · obtain ⟨_, ⟨_, use, read⟩ | ⟨others, _⟩⟩ := useCache_eq_ok (origin cte' member' named)
    · rw [cacheUse_eq_table_iff.mpr uses] at use
      cases use
      exact ⟨_, read, rfl⟩
    · exact absurd (cacheUse_eq_table_iff.mpr uses) (others table)
  · obtain ⟨_, ⟨table, use, _⟩ | ⟨_, rfl⟩⟩ := useCache_eq_ok (origin cte' member' named)
    · exact absurd (cacheUse_eq_table_iff.mp use) (others table)
    · rfl

theorem Redefines.rename (redefines : c.Redefines lookup cte id q) (b : Backend) :
    c.Redefines lookup cte b.renameFunctions (b.renameFunctions q) := by
  have origin : ∀ cte' ∈ (b.renameFunctions q).ctes, nameOf cte' = nameOf cte →
      ∃ old ∈ q.ctes, nameOf old = nameOf cte ∧ cte'.query = b.renameFunctions old.query := by
    intro cte' member named
    rw [b.renameFunctions_ctes] at member
    obtain ⟨old, found, rfl⟩ := mem_map.mp member
    exact ⟨old, found, named, rfl⟩
  refine ⟨fun unknown => ?_, fun cte' member named table uses => ?_, fun cte' member named others => ?_⟩
  · rw [(b.renameFunctions_alike (fun _ => False) (fun _ => False) .visited q).names_eq]
    exact redefines.present unknown
  · obtain ⟨old, member, named, body⟩ := origin cte' member named
    obtain ⟨table, read, same⟩ := redefines.replaced old member named table uses
    exact ⟨table, read, by rw [body, same, id]⟩
  · obtain ⟨old, member, named, body⟩ := origin cte' member named
    rw [body, redefines.kept old member named others, id]

end Stage

end Context

/-- An entry that a query brings along is compiled to one entry. In a query for the cache it is defined
    as there, unless it bears the name of an object whose table is to be used: then it reads that
    table. -/
theorem own_entry_redefined (c : Context) (b : Backend) (lookup : CacheLookup) (q live : Query)
    (compiled : c.compile q = .ok live) (name : String) (own : name ∈ names q) :
    ∃ cte ∈ live.ctes, nameOf cte = name ∧ (∀ other ∈ live.ctes, nameOf other = name → other = cte) ∧
      (∀ cached full, c.compileCached lookup live = .ok (cached, full) → c.Redefines lookup cte id cached) ∧
      ∀ served, c.compileQueryCached b lookup q = .ok (some served) →
        c.Redefines lookup cte b.renameFunctions served := by
  obtain ⟨expanded, grouped, expands, keys⟩ := Context.expands_of_compile compiled
  have distinct : (names live).Nodup := (keys.evolves .visited).nodup expands.names_nodup
  have present : name ∈ names live := (keys.evolves .visited).kept name (expands.names_subset own)
  obtain ⟨cte, member, rfl⟩ := mem_map.mp present
  have unique : ∀ other ∈ live.ctes, nameOf other = nameOf cte → other = cte :=
    fun other found same => inj_on_of_nodup_map distinct found member same
  have redefines : ∀ cached full, c.compileCached lookup live = .ok (cached, full) →
      c.Redefines lookup cte id cached := by
    intro cached full pointed
    obtain ⟨used, a, stage, _⟩ := c.compileCached_stage lookup live _ pointed
    exact stage.redefines member unique
  refine ⟨cte, member, rfl, unique, redefines, fun served answer => ?_⟩
  obtain ⟨live', cached, compiled', pointed, rfl⟩ := Context.compileQueryCached_eq_some answer
  cases compiled.symm.trans compiled'
  exact (redefines cached true pointed).rename b

def lookupIn (tables : List (String × String)) : CacheLookup := fun object => tables.lookup object.table

theorem mem_of_lookupIn {tables : List (String × String)} {object : TableName}
    (found : lookupIn tables object = some table) : (object.table, table) ∈ tables := by
  obtain ⟨early, late, rfl, _⟩ := lookup_eq_some_iff.mp found
  exact mem_append_right _ mem_cons_self

theorem own_orders_redefined : ∃ q live served cte, readQuery "WITH Orders AS (SELECT 1) SELECT * FROM Orders" = .ok q ∧
    Context.compile ⟨.ofLayer ordersLayer, ordersLayer⟩ q = .ok live ∧
    Context.compileQueryCached ⟨.ofLayer ordersLayer, ordersLayer⟩ .sqlite
      (lookupIn [("Orders", "Orders_1")]) q = .ok (some served) ∧
    cte ∈ live.ctes ∧ nameOf cte = "Orders" ∧ cte.query.body.mentions = [] ∧ names served = ["Orders"] ∧
    ∀ cte' ∈ served.ctes, nameOf cte' = "Orders" → cte'.query = .ofTable "Orders_1" := by
  have run : ∃ q, readQuery "WITH Orders AS (SELECT 1) SELECT * FROM Orders" = .ok q ∧
      ∃ live, Context.compile ⟨.ofLayer ordersLayer, ordersLayer⟩ q = .ok live ∧
      ∃ answer, Context.compileQueryCached ⟨.ofLayer ordersLayer, ordersLayer⟩ .sqlite
        (lookupIn [("Orders", "Orders_1")]) q = .ok answer ∧
      names q = ["Orders"] ∧ (∀ cte ∈ live.ctes, cte.query.body.mentions = []) ∧ answer.map names = some ["Orders"] := by
    decide +kernel
  obtain ⟨q, read, live, compiled, answer, cached, own, bodies, rest⟩ := run
  obtain ⟨served, rfl, entries⟩ := Option.map_eq_some_iff.mp rest
  obtain ⟨cte, member, named, -, -, redefines⟩ := own_entry_redefined ⟨.ofLayer ordersLayer, ordersLayer⟩
    .sqlite (lookupIn [("Orders", "Orders_1")]) q live compiled "Orders" (own ▸ mem_cons_self)
  refine ⟨q, live, served, cte, read, compiled, cached, member, named, bodies cte member, entries, ?_⟩
  intro cte' member' named'
  have uses : Context.UsesTable ⟨.ofLayer ordersLayer, ordersLayer⟩ (lookupIn [("Orders", "Orders_1")]) cte
      "Orders_1" := by
    unfold Context.UsesTable
    rw [named]
    exact ⟨rfl, .inl (by decide)⟩
  obtain ⟨body, read, same⟩ := (redefines served cached).replaced cte' member' (named'.trans named.symm) _ uses
  cases (Context.readTable_eq (by decide)).symm.trans read
  rw [same, Backend.renameFunctions_ofTable]

end SemanticLayer
