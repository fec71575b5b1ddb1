import SemanticLayer.Proofs.Entries
import SemanticLayer.Proofs.Repeats
import SemanticLayer.Proofs.TableQuery
import SemanticLayer.Proofs.Unchanged

/-! # Analyses with fewer WITH entries

WITH names decide what is noted of a table, never which fields it has. So a query is also analyzed without some of its
WITH entries, and with entries that read a table instead.
-/

namespace SemanticLayer

open Sql

theorem Sql.Query.mapTables_id (q : Query) : q.mapTables id = q := by
  have keeps : KeepsTables (m := Id) (fun _ => True) (Relation.mapTable id) := by
    intro r _
    cases r <;> rfl
  rw [Query.mapTables_eq]
  exact Query.walk_eq_pure keeps q (fun _ _ => trivial) fun x member => x.mapTables_id
termination_by q.height
decreasing_by exact Query.height_lt_queries member

namespace Context

/-- A query that differs in its WITH clause only: entries may be missing, and may read a table instead. -/
structure Lightens (q q' : Query) : Prop where
  rest : With.SameBody q q'
  fewer : (With.names q').Sublist (With.names q)
  entries : ∀ cte' ∈ q'.ctes, cte' ∈ q.ctes ∨ ∃ table, cte'.query = .ofTable table

theorem sitesAt_ofTable (c : Context) (n : Nat) (table : String) (scope : Scope) :
    c.PassAll (c.sitesAt n (.ofTable table) scope) := by
  cases n with
  | zero => exact List.forall_mem_nil _
  | succ n =>
    -- The table, its columns, and the end of the query.
    have read : c.Passes (scope, .table [{ value := table, quote := some '"' }]) := ⟨_, rfl⟩
    exact List.forall_mem_cons.mpr ⟨read, List.forall_mem_cons.mpr ⟨trivial, List.forall_mem_singleton.mpr trivial⟩⟩

/-- A query is analyzed as well with fewer and plainer WITH entries, wherever names mean the same. -/
theorem sitesAt_lightens (c : Context) {n n' : Nat} {q q' : Query} (low : q.height ≤ n) (low' : q'.height ≤ n')
    (lightens : Lightens q q') : c.FollowsNested (c.sitesAt n) (c.sitesAt n') q q' := by
  have follows {x : Query} {k k' : Nat} (low : x.height ≤ k) (low' : x.height ≤ k') :
      c.FollowsNested (c.sitesAt k) (c.sitesAt k') x x ∧ c.fieldsAt k' x = c.fieldsAt k x := by
    have all := sitesAt_mapTables (.id c) k k' x low
    rw [Query.mapTables_id] at all
    exact all low'
  obtain ⟨n, rfl⟩ := Query.exists_succ low
  obtain ⟨n', rfl⟩ := Query.exists_succ low'
  refine (sitesAt_follow (.id c) (g := Query.mapTables id) ?_ ?_ lightens.fewer (fun x member => ?_)
    fun cte' member' => ?_).1
  · rw [lightens.rest.body, ← Query.body_mapTables, Query.mapTables_id]
  · rw [← orderKeys_mapTables, Query.mapTables_id]
    unfold orderKeys
    rw [lightens.rest.body, lightens.rest.orderBy]
  · have lower := Query.height_lt_inner member
    rw [← lightens.rest.inner_eq] at member
    have lower' := Query.height_lt_inner member
    rw [Query.mapTables_id]
    exact follows (by omega) (by omega)
  · rcases lightens.entries cte' member' with member | ⟨table, plain⟩
    · have lower := Query.height_lt_ctes member
      have lower' := Query.height_lt_ctes member'
      exact .inr ⟨cte', member, (follows (by omega) (by omega)).1⟩
    · rw [plain]
      exact .inl (c.sitesAt_ofTable n' table)

end Context

end SemanticLayer
