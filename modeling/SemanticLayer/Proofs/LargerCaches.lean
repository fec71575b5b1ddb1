import SemanticLayer.Proofs.OtherScopes
import SemanticLayer.Proofs.Pruning
import SemanticLayer.Proofs.Substitution

/-! # Larger caches

A query that is answered from the cache is still answered if the cache has more tables. With more tables, more
entries read a table of their own, so fewer entries are read; what is left was there before or reads a table. The
tables are read under names that mean no object: else an entry could come to be read only because of a table.
-/

namespace SemanticLayer

open Sql List
open With (names nameOf)

/-- A cache that has all tables of another one. -/
def CacheLookup.Extends (lookup more : CacheLookup) : Prop :=
  ∀ object table, lookup object = some table → more object = some table

/-- The tables of a cache have names of their own, which can be quoted. -/
def CacheLookup.Plain (l : Layer) (lookup : CacheLookup) : Prop :=
  ∀ object table, lookup object = some table → l.kind? table = none ∧ '"' ∉ table.toList

theorem CacheLookup.Plain.of_extends {l : Layer} {lookup more : CacheLookup} (plain : Plain l more)
    (larger : Extends lookup more) : Plain l lookup :=
  fun object table found => plain object table (larger object table found)

namespace Context

variable {c : Context} {lookup more : CacheLookup} {q : Query} {cte cte' : Cte Query} {mention : Mention}
  {finding : Finding}

section Uses

variable {table : String}

theorem UsesTable.extends (larger : lookup.Extends more)
    (uses : c.UsesTable lookup cte table) : c.UsesTable more cte table :=
  ⟨larger _ _ uses.1, uses.2⟩

theorem cacheUse_table_extends (larger : lookup.Extends more)
    (uses : c.cacheUse lookup cte = .table table) : c.cacheUse more cte = .table table :=
  cacheUse_eq_table_iff.mpr ((cacheUse_eq_table_iff.mp uses).extends larger)

/-- What has no table in the larger cache has none in the smaller one. -/
theorem cacheUse_uncached_extends (larger : lookup.Extends more)
    (uncached : c.cacheUse more cte = .uncached) : c.cacheUse lookup cte = .uncached := by
  cases use : c.cacheUse lookup cte with
  | keep =>
    rw [cacheUse_eq_keep_iff.mpr (cacheUse_eq_keep_iff.mp use)] at uncached
    cases uncached
  | table table =>
    rw [cacheUse_table_extends larger use] at uncached
    cases uncached
  | uncached => rfl

/-- An entry, reading the table that it is to use. -/
def pointed (c : Context) (lookup : CacheLookup) (cte : Cte Query) : Cte Query :=
  match c.cacheUse lookup cte with
  | .table table => { cte with query := .ofTable table }
  | .keep | .uncached => cte

theorem nameOf_pointed (c : Context) (lookup : CacheLookup) (cte : Cte Query) :
    nameOf (c.pointed lookup cte) = nameOf cte := by
  unfold pointed
  split <;> rfl

theorem useCache_eq (plain : lookup.Plain c.layer) :
    c.useCache lookup cte = .ok (c.pointed lookup cte) := by
  unfold useCache pointed
  cases use : c.cacheUse lookup cte with
  | keep | uncached => rfl
  | table table =>
    simp only [readTable_eq (plain _ table (lookup_of_cacheUse use)).2]
    rfl

/-- A query with its entries pointed at cache tables, as far as they are still read. -/
def cachedQuery (c : Context) (lookup : CacheLookup) (q : Query) : Query :=
  With.prune c.layer { q with ctes := q.ctes.map (c.pointed lookup) }

/-- The cache suffices for a query: some entry reads a table, no entry that is left lacks one, and nothing else is
    read. -/
structure Suffices (c : Context) (lookup : CacheLookup) (q : Query) : Prop where
  nonempty : c.cacheTables lookup q.ctes ≠ []
  cached : ∀ cte ∈ q.ctes, nameOf cte ∈ names (c.cachedQuery lookup q) → c.cacheUse lookup cte ≠ .uncached
  reads : ∃ a, c.analyze (c.cachedQuery lookup q) = .ok a ∧
    ∀ table ∈ a.physicalTables, table ∈ c.cacheTables lookup q.ctes

theorem compileCached_eq_full (plain : lookup.Plain c.layer) {q' : Query} :
    c.compileCached lookup q = .ok (q', true) ↔ q' = c.cachedQuery lookup q ∧ c.Suffices lookup q := by
  have uses : q.ctes.mapM (c.useCache lookup) = .ok (q.ctes.map (c.pointed lookup)) := by
    have each : c.useCache lookup = fun cte => pure (c.pointed lookup cte) := funext fun cte => useCache_eq plain
    rw [each]
    exact mapM_pure
  unfold compileCached
  rw [uses]
  change (c.analyze (c.cachedQuery lookup q) >>= fun a => _) = _ ↔ _
  cases analyzed : c.analyze (c.cachedQuery lookup q) with
  | error e =>
    refine ⟨nofun, ?_⟩
    rintro ⟨_, _, _, a, analyzed', _⟩
    cases analyzed.symm.trans analyzed'
  | ok a =>
    have cached : (!(c.uncachedNames lookup q.ctes).any (With.has (c.cachedQuery lookup q))) = true ↔
        ∀ cte ∈ q.ctes, nameOf cte ∈ names (c.cachedQuery lookup q) → c.cacheUse lookup cte ≠ .uncached := by
      simp only [uncachedNames, Bool.not_eq_true', any_eq_false, mem_map, mem_filter, beq_iff_eq,
        With.has_iff, forall_exists_index, and_imp]
      constructor
      · exact fun all cte member present use => all _ cte member use rfl present
      · rintro all _ cte member use rfl present
        exact all cte member present use
    change Except.ok _ = _ ↔ _
    rw [Except.ok.injEq, Prod.mk.injEq, Bool.and_eq_true, Bool.and_eq_true, Bool.not_eq_true',
      isEmpty_eq_false_iff, all_eq_true]
    constructor
    · rintro ⟨rfl, ⟨some, none⟩, physical⟩
      exact ⟨rfl, some, cached.mp none, a, analyzed, fun table found =>
        contains_iff_mem.mp (physical table found)⟩
    · rintro ⟨rfl, some, none, _, analyzed', physical⟩
      cases analyzed.symm.trans analyzed'
      exact ⟨rfl, ⟨some, cached.mpr none⟩, fun table found => contains_iff_mem.mpr (physical table found)⟩

end Uses

section Kept

variable {name : String}

theorem cachedQuery_rest (c : Context) (lookup : CacheLookup) (q : Query) : With.SameBody q (c.cachedQuery lookup q) :=
  have pruned := With.prune_pruned c.layer { q with ctes := q.ctes.map (c.pointed lookup) }
  ⟨pruned.rest.body, pruned.rest.orderBy, pruned.rest.limit, pruned.rest.trailer⟩

theorem cachedQuery_ctes (c : Context) (lookup : CacheLookup) (q : Query) : (c.cachedQuery lookup q).ctes =
    (q.ctes.filter fun cte => With.has (c.cachedQuery lookup q) (nameOf cte)).map (c.pointed lookup) := by
  have kept : (c.cachedQuery lookup q).ctes = (q.ctes.map (c.pointed lookup)).filter fun cte =>
      With.has (c.cachedQuery lookup q) (nameOf cte) := With.prune_filter c.layer _
  rw [filter_map] at kept
  simpa only [Function.comp_def, nameOf_pointed] using kept

theorem mem_cachedQuery : cte' ∈ (c.cachedQuery lookup q).ctes ↔
    ∃ cte ∈ q.ctes, nameOf cte ∈ names (c.cachedQuery lookup q) ∧ c.pointed lookup cte = cte' := by
  rw [cachedQuery_ctes]
  simp only [mem_map, mem_filter, With.has_iff, and_assoc]

theorem names_cachedQuery (c : Context) (lookup : CacheLookup) (q : Query) :
    names (c.cachedQuery lookup q) = (names q).filter (With.has (c.cachedQuery lookup q)) := by
  conv_lhs => rw [names, cachedQuery_ctes]
  rw [names, map_map, filter_map]
  exact map_congr_left fun cte _ => nameOf_pointed c lookup cte

theorem has_cachedQuery_of_free (member : name ∈ names q) (free : c.layer.kind? name = none) :
    With.has (c.cachedQuery lookup q) name = true := by
  obtain ⟨cte, found, rfl⟩ := mem_map.mp member
  have pruned := With.prune_pruned c.layer { q with ctes := q.ctes.map (c.pointed lookup) }
  have stays := pruned.kept (c.pointed lookup cte) (mem_map_of_mem found) (.inl (by rwa [nameOf_pointed]))
  rw [With.has_iff, ← nameOf_pointed c lookup cte]
  exact With.mem_names_of_mem stays

theorem relations_pointed (larger : lookup.Extends more) (plain : more.Plain c.layer)
    (object : c.layer.kind? name ≠ none) (read : name ∈ (c.pointed more cte).query.relations) :
    name ∈ (c.pointed lookup cte).query.relations := by
  cases use : c.cacheUse more cte with
  | table table =>
    have free := (plain _ table (lookup_of_cacheUse use)).1
    simp only [pointed, use, Query.ofTable_relations, mem_singleton] at read
    exact absurd (read ▸ free) object
  | keep =>
    have same : c.cacheUse lookup cte = .keep := cacheUse_eq_keep_iff.mpr (cacheUse_eq_keep_iff.mp use)
    simp only [pointed, use] at read
    simpa only [pointed, same] using read
  | uncached =>
    simp only [pointed, use] at read
    simpa only [pointed, cacheUse_uncached_extends larger use] using read

/-- With more tables, fewer entries are left: those that are left would have supported each other before. -/
theorem names_cachedQuery_subset (larger : lookup.Extends more) (plain : more.Plain c.layer)
    (member : name ∈ names (c.cachedQuery more q)) : name ∈ names (c.cachedQuery lookup q) := by
  let left := q.ctes.filter fun cte => With.has (c.cachedQuery more q) (nameOf cte)
  let kept : Query := { q with ctes := left.map (c.pointed lookup) }
  have reads : ∀ name ∈ With.mentioned (c.cachedQuery more q), c.layer.kind? name ≠ none →
      name ∈ With.mentioned kept := by
    intro name read object
    simp only [With.mentioned, (cachedQuery_rest c more q).body, (cachedQuery_rest c more q).orderBy,
      cachedQuery_ctes c more q, mem_append, mem_flatMap] at read ⊢
    refine read.imp_right ?_
    rintro ⟨_, entry, found⟩
    obtain ⟨cte, stays, rfl⟩ := mem_map.mp entry
    obtain ⟨related, other⟩ := mem_filter.mp found
    refine ⟨c.pointed lookup cte, mem_map_of_mem stays, mem_filter.mpr ⟨?_, ?_⟩⟩
    · exact relations_pointed larger plain object related
    · rwa [nameOf_pointed] at other ⊢
  have supported : With.Supported c.layer kept := by
    intro _ entry object
    obtain ⟨cte, stays, rfl⟩ := mem_map.mp entry
    rw [nameOf_pointed] at object ⊢
    have entry' : c.pointed more cte ∈ (c.cachedQuery more q).ctes := by
      rw [cachedQuery_ctes]
      exact mem_map_of_mem stays
    have read := With.prune_supported c.layer { q with ctes := q.ctes.map (c.pointed more) } _ entry'
    rw [nameOf_pointed] at read
    exact reads _ (read object) object
  have survives : kept.ctes.Sublist (c.cachedQuery lookup q).ctes :=
    With.prune_greatest ⟨rfl, rfl, rfl, rfl⟩ (filter_sublist.map (c.pointed lookup)) supported
  obtain ⟨_, entry, rfl⟩ := mem_map.mp member
  obtain ⟨cte, own, present, rfl⟩ := mem_cachedQuery.mp entry
  have stays : cte ∈ left := mem_filter.mpr ⟨own, With.has_iff.mpr present⟩
  rw [nameOf_pointed, ← nameOf_pointed c lookup cte]
  exact With.mem_names_of_mem (survives.subset (mem_map_of_mem stays))

end Kept

section Visible

variable {front back : List (Cte Query)}

/-- Two lists of WITH names that differ in the names of objects at most. -/
def SameApart (c : Context) (bound bound' : List String) : Prop :=
  ∀ name, c.layer.kind? name = none → (name ∈ bound ↔ name ∈ bound')

variable {bound bound' bound'' : List String}

theorem SameApart.symm (same : c.SameApart bound bound') : c.SameApart bound' bound :=
  fun name free => (same name free).symm

theorem SameApart.trans (same : c.SameApart bound bound') (same' : c.SameApart bound' bound'') :
    c.SameApart bound bound'' :=
  fun name free => (same name free).trans (same' name free)

theorem SameApart.append_left (own : List String) (same : c.SameApart bound bound') :
    c.SameApart (own ++ bound) (own ++ bound') := by
  intro name free
  rw [mem_append, mem_append, same name free]

theorem SameApart.append_right (same : c.SameApart bound bound') (outer : List String) :
    c.SameApart (bound ++ outer) (bound' ++ outer) := by
  intro name free
  rw [mem_append, mem_append, same name free]

theorem Means.sameApart (means : c.Means bound mention finding)
    (same : c.SameApart bound bound') : c.Means bound' mention finding := by
  cases means with
  | object named object => exact .object named object
  | rollup named rolled => exact .rollup named rolled
  | physical unbound named physical =>
    refine .physical ?_ named physical
    rintro ⟨part, rfl, visible, free⟩
    exact unbound ⟨part, rfl, (same _ free).mpr visible, free⟩

theorem names_sameApart (c : Context) (lookup : CacheLookup) (q : Query) :
    c.SameApart (names q) (names (c.cachedQuery lookup q)) := by
  intro name free
  rw [names_cachedQuery, mem_filter]
  exact ⟨fun member => ⟨member, has_cachedQuery_of_free member free⟩, fun member => member.1⟩

theorem visible_sameApart (split : q.ctes = front ++ cte :: back)
    (present : nameOf cte ∈ names (c.cachedQuery lookup q)) :
    c.SameApart (q.visibleTo front cte) ((c.cachedQuery lookup q).visibleTo
      ((front.filter fun cte => With.has (c.cachedQuery lookup q) (nameOf cte)).map (c.pointed lookup))
      (c.pointed lookup cte)) := by
  have recursive : (c.cachedQuery lookup q).recursive = q.recursive := by
    refine With.prune_recursive c.layer { q with ctes := q.ctes.map (c.pointed lookup) } fun empty => ?_
    obtain ⟨_, member, _⟩ := mem_map.mp present
    exact ne_nil_of_mem member empty
  have earlier : c.SameApart (front.map nameOf)
      (((front.filter fun cte => With.has (c.cachedQuery lookup q) (nameOf cte)).map
        (c.pointed lookup)).map nameOf) := by
    intro name free
    simp only [map_map, mem_map, mem_filter, Function.comp_apply, nameOf_pointed]
    constructor
    · rintro ⟨other, member, rfl⟩
      have own : other ∈ q.ctes := by
        rw [split]
        exact mem_append_left _ member
      exact ⟨other, ⟨member, has_cachedQuery_of_free (With.mem_names_of_mem own) free⟩, rfl⟩
    · rintro ⟨other, ⟨member, _⟩, same⟩
      exact ⟨other, member, same⟩
  unfold Query.visibleTo
  rw [recursive, nameOf_pointed]
  split
  · exact earlier.append_right _
  · exact earlier

theorem cachedQuery_split (split : (c.cachedQuery lookup q).ctes = front ++ cte' :: back) :
    ∃ front' cte back', q.ctes = front' ++ cte :: back' ∧ nameOf cte ∈ names (c.cachedQuery lookup q) ∧
      c.pointed lookup cte = cte' ∧
      c.SameApart (q.visibleTo front' cte) ((c.cachedQuery lookup q).visibleTo front cte') := by
  have parts := split
  rw [cachedQuery_ctes] at parts
  obtain ⟨first, rest, apart, rfl, later⟩ := map_eq_append_iff.mp parts
  obtain ⟨cte, others, rfl, rfl, _⟩ := map_eq_cons_iff.mp later
  obtain ⟨early, late, whole, rfl, later⟩ := filter_eq_append_iff.mp apart
  obtain ⟨skipped, back', rfl, dropped, present, _⟩ := filter_eq_cons_iff.mp later
  have present := With.has_iff.mp present
  -- Entries that are dropped right in front of this one make no difference to what is left.
  have place : q.ctes = (early ++ skipped) ++ cte :: back' := by rw [whole, append_assoc]
  have visible := visible_sameApart place present
  rw [filter_append, filter_eq_nil_iff.mpr dropped, append_nil] at visible
  exact ⟨early ++ skipped, cte, back', place, present, rfl, visible⟩

theorem split_cachedQuery (split : q.ctes = front ++ cte :: back)
    (present : nameOf cte ∈ names (c.cachedQuery lookup q)) :
    ∃ front' back', (c.cachedQuery lookup q).ctes = front' ++ c.pointed lookup cte :: back' ∧
      c.SameApart (q.visibleTo front cte) ((c.cachedQuery lookup q).visibleTo front' (c.pointed lookup cte)) := by
  let left := fun cte => With.has (c.cachedQuery lookup q) (nameOf cte)
  refine ⟨(front.filter left).map (c.pointed lookup), (back.filter left).map (c.pointed lookup), ?_,
    visible_sameApart split present⟩
  have kept : left cte = true := With.has_iff.mpr present
  rw [cachedQuery_ctes, split, filter_append, filter_cons_of_pos kept, map_append, map_cons]

end Visible

namespace Suffices

variable (enough : c.Suffices lookup q) (larger : lookup.Extends more)
  (plain : more.Plain c.layer)

variable {bound : List String} {a : Analysis}

include enough larger plain

/-- An entry that is left with more tables reads its table, or was left as it is before. -/
theorem entry_more (member : cte ∈ q.ctes) (present : nameOf cte ∈ names (c.cachedQuery more q)) :
    (∃ table, c.cacheUse more cte = .table table) ∨ c.pointed more cte = c.pointed lookup cte := by
  cases use : c.cacheUse more cte with
  | table table => exact .inl ⟨table, rfl⟩
  | keep =>
    have same : c.cacheUse lookup cte = .keep := cacheUse_eq_keep_iff.mpr (cacheUse_eq_keep_iff.mp use)
    simp only [pointed, use, same]
    exact .inr trivial
  | uncached =>
    have present := names_cachedQuery_subset larger plain present
    exact absurd (cacheUse_uncached_extends larger use) (enough.cached cte member present)

theorem lightens : Lightens (c.cachedQuery lookup q) (c.cachedQuery more q) where
  rest := (cachedQuery_rest c lookup q).symm.trans (cachedQuery_rest c more q)
  fewer := by
    rw [names_cachedQuery c more, names_cachedQuery c lookup]
    refine monotone_filter_right _ fun name present => ?_
    exact With.has_iff.mpr (names_cachedQuery_subset larger plain (With.has_iff.mp present))
  entries cte' member' := by
    obtain ⟨cte, member, present, rfl⟩ := mem_cachedQuery.mp member'
    rcases enough.entry_more larger plain member present with ⟨table, use⟩ | same
    · exact .inr ⟨table, by simp only [pointed, use]⟩
    · rw [same]
      exact .inl (mem_cachedQuery.mpr ⟨cte, member, names_cachedQuery_subset larger plain present, rfl⟩)

/-- What is read with more tables is a cache table, or was read before where the same names are visible. -/
theorem reads_more (reads : (c.cachedQuery more q).Reads .visited [] bound mention) :
    (∃ cte ∈ q.ctes, ∃ table, c.cacheUse more cte = .table table ∧
      mention = .table [{ value := table, quote := some '"' }]) ∨
    ∃ bound', (c.cachedQuery lookup q).Reads .visited [] bound' mention ∧ c.SameApart bound bound' := by
  have rest := (enough.lightens larger plain).rest
  have visible : c.SameApart (names (c.cachedQuery more q) ++ []) (names (c.cachedQuery lookup q) ++ []) :=
    ((names_sameApart c more q).symm.trans (names_sameApart c lookup q)).append_right []
  cases reads with
  | here member =>
    rw [rest.body] at member
    exact .inr ⟨_, .here member, visible⟩
  | nested member reads =>
    rw [rest.inner_eq] at member
    obtain ⟨own, rfl, moved⟩ := reads.moves
    exact .inr ⟨_, .nested member (moved _), visible.append_left own⟩
  | entry split reads =>
    obtain ⟨front, cte, back, place, present, rfl, seen⟩ := cachedQuery_split split
    have member : cte ∈ q.ctes := by
      rw [place]
      exact mem_append_right _ mem_cons_self
    rcases enough.entry_more larger plain member present with ⟨table, use⟩ | same
    · simp only [pointed, use] at reads
      exact .inl ⟨cte, member, table, use, Query.ofTable_mentions reads.mentions⟩
    · obtain ⟨front', back', place', seen'⟩ :=
        split_cachedQuery place (names_cachedQuery_subset larger plain present)
      obtain ⟨own, rfl, moved⟩ := reads.moves
      rw [same] at moved
      exact .inr ⟨_, .entry place' (moved _), ((seen.symm.trans seen').append_right []).append_left own⟩

/-- What is found with more tables is a cache table, or was found before. -/
theorem found_more (analyzed : c.analyze (c.cachedQuery lookup q) = .ok a)
    (reads : (c.cachedQuery more q).Reads .visited [] bound mention) (means : c.Means bound mention finding) :
    (∃ table ∈ c.cacheTables more q.ctes, finding = .physical table) ∨ a.Found finding := by
  rcases enough.reads_more larger plain reads with ⟨cte, member, table, use, rfl⟩ | ⟨bound', reads', same⟩
  · left
    cases means with
    | object named object =>
      cases named
      have free := (plain _ table (lookup_of_cacheUse use)).1
      cases free.symm.trans (layer_kind_of_kind object)
    | physical _ named _ =>
      cases named
      exact ⟨_, mem_filterMap.mpr ⟨cte, member, by rw [use]⟩, rfl⟩
  · exact .inr (found_of_reads analyzed reads' (means.sameApart same))

/-- Fewer objects and roll-ups are read with more tables, so the analysis goes through again. -/
theorem analyze_more (analyzed : c.analyze (c.cachedQuery lookup q) = .ok a) :
    ∃ a', c.analyze (c.cachedQuery more q) = .ok a' := by
  obtain ⟨passes, checked, rfl⟩ := analyze_eq_ok.mp analyzed
  have follows := c.sitesAt_lightens (Nat.le_refl _) (Nat.le_refl _) (enough.lightens larger plain)
  have passes' : c.PassAll (c.sites (c.cachedQuery more q) []) := follows [] [] (fun _ => rfl) passes
  have before : ∀ finding, (∀ table, finding ≠ .physical table) → (c.gathered (c.cachedQuery more q)).Found finding →
      (c.gathered (c.cachedQuery lookup q)).Found finding := by
    intro finding virtual found
    obtain ⟨bound, mention, reads, means⟩ := (found_gathered passes').mp found
    rcases enough.found_more larger plain analyzed reads means with ⟨table, _, same⟩ | found
    · exact absurd same (virtual table)
    · exact found
  rw [Analysis.checkRollups_eq_ok] at checked
  have checked' : (c.gathered (c.cachedQuery more q)).checkRollups = .ok () := by
    rw [Analysis.checkRollups_eq_ok]
    intro r rolled direct
    exact checked r (before _ nofun rolled) (before _ nofun direct)
  exact ⟨_, analyze_eq_ok.mpr ⟨passes', checked', rfl⟩⟩

end Suffices

theorem cacheTables_subset (larger : lookup.Extends more) {table : TableName}
    (member : table ∈ c.cacheTables lookup q.ctes) : table ∈ c.cacheTables more q.ctes := by
  obtain ⟨cte, own, same⟩ := mem_filterMap.mp member
  refine mem_filterMap.mpr ⟨cte, own, ?_⟩
  cases use : c.cacheUse lookup cte with
  | keep | uncached =>
    rw [use] at same
    cases same
  | table name =>
    rw [use] at same
    rw [cacheUse_table_extends larger use]
    exact same

theorem Suffices.extends (enough : c.Suffices lookup q) (larger : lookup.Extends more)
    (plain : more.Plain c.layer) : c.Suffices more q where
  nonempty := by
    obtain ⟨table, rest, some⟩ := exists_cons_of_ne_nil enough.nonempty
    exact ne_nil_of_mem (cacheTables_subset larger (some ▸ mem_cons_self))
  cached cte member present uncached :=
    enough.cached cte member (names_cachedQuery_subset larger plain present) (cacheUse_uncached_extends larger uncached)
  reads := by
    obtain ⟨a, analyzed, physical⟩ := enough.reads
    obtain ⟨a', analyzed'⟩ := enough.analyze_more larger plain analyzed
    refine ⟨a', analyzed', fun table found => ?_⟩
    have found' : a'.Found (.physical table) := found
    obtain ⟨bound, mention, reads, means⟩ := found_is_read analyzed' found'
    rcases enough.found_more larger plain analyzed reads means with ⟨_, member, same⟩ | found
    · cases same
      exact member
    · exact cacheTables_subset larger (physical table found)

variable {b : Backend}

theorem compileQueryCached_extends (larger : lookup.Extends more) (plain : more.Plain c.layer)
    {served : Query} (answer : c.compileQueryCached b lookup q = .ok (some served)) :
    ∃ served', c.compileQueryCached b more q = .ok (some served') := by
  obtain ⟨a, live, cached, analyzed, virtual, compiled, pointed, _⟩ := compileQueryCached_eq_some_iff.mp answer
  obtain ⟨_, enough⟩ := (compileCached_eq_full (plain.of_extends larger)).mp pointed
  have pointed' := (compileCached_eq_full plain).mpr ⟨rfl, enough.extends larger plain⟩
  exact ⟨_, compileQueryCached_eq_some_iff.mpr ⟨a, live, _, analyzed, virtual, compiled, pointed', rfl⟩⟩

theorem compileAllCached_extends (larger : lookup.Extends more) (plain : more.Plain c.layer) :
    ∀ {statements : List Statement} {texts : List String}, c.compileAllCached b lookup statements = .ok (some texts) →
      ∃ texts', c.compileAllCached b more statements = .ok (some texts')
  | [], _, _ => ⟨[], rfl⟩
  | .command _ :: _, _, answer => by cases answer
  | .query q :: rest, texts, answer => by
    rw [compileAllCached] at answer ⊢
    split at answer
    · cases answer
    · cases answer
    · rename_i served first
      obtain ⟨served', first'⟩ := compileQueryCached_extends larger plain first
      rw [first']
      cases others : c.compileAllCached b lookup rest with
      | error e =>
        rw [others] at answer
        cases answer
      | ok found =>
        cases found with
        | none =>
          rw [others] at answer
          cases answer
        | some found =>
          obtain ⟨found', others'⟩ := compileAllCached_extends larger plain others
          rw [others']
          exact ⟨_, rfl⟩

end Context

/-- Caching more never loses an answer from the cache, as long as no cache table has the name of an object or a
    quote in its name. -/
theorem compileSqlCached_extends (c : Context) (b : Backend) (lookup more : CacheLookup) (sql text : String)
    (larger : CacheLookup.Extends lookup more) (plain : CacheLookup.Plain c.layer more)
    (answer : c.compileSqlCached b lookup sql = .ok (some text)) :
    ∃ text', c.compileSqlCached b more sql = .ok (some text') := by
  unfold Context.compileSqlCached at answer ⊢
  cases parsed : Statement.parseAll? b.dialect sql with
  | none =>
    rw [parsed] at answer
    cases answer
  | some statements =>
    rw [parsed] at answer
    obtain ⟨found, all, joined⟩ := bind_eq_ok_iff.mp answer
    cases found with
    | none => cases joined
    | some texts =>
      obtain ⟨texts', all'⟩ := Context.compileAllCached_extends larger plain all
      exact ⟨_, bind_eq_ok_iff.mpr ⟨_, all', rfl⟩⟩

/-- With a table for the base of a metric as well, the metric is still read from its table. -/
theorem revenue_still_served : ∃ text text',
    Context.compileSqlCached ⟨.ofLayer ordersLayer, ordersLayer⟩ .sqlite (lookupIn [("Revenue", "Revenue_1")])
      "SELECT * FROM Revenue" = .ok (some text) ∧
    Context.compileSqlCached ⟨.ofLayer ordersLayer, ordersLayer⟩ .sqlite
      (lookupIn [("Revenue", "Revenue_1"), ("Orders", "Orders_2")]) "SELECT * FROM Revenue" = .ok (some text') := by
  have run : ∃ answer, Context.compileSqlCached ⟨.ofLayer ordersLayer, ordersLayer⟩ .sqlite
      (lookupIn [("Revenue", "Revenue_1")]) "SELECT * FROM Revenue" = .ok answer ∧ answer.isSome := by
    decide +kernel
  obtain ⟨answer, returned, found⟩ := run
  obtain ⟨text, rfl⟩ := Option.isSome_iff_exists.mp found
  have larger : CacheLookup.Extends (lookupIn [("Revenue", "Revenue_1")])
      (lookupIn [("Revenue", "Revenue_1"), ("Orders", "Orders_2")]) := by
    intro object table found
    have named := mem_of_lookupIn found
    simp only [mem_singleton, Prod.mk.injEq] at named
    simp [lookupIn, named]
  have plain : CacheLookup.Plain ordersLayer (lookupIn [("Revenue", "Revenue_1"), ("Orders", "Orders_2")]) := by
    intro object table found
    have named := mem_of_lookupIn found
    simp only [mem_cons, not_mem_nil, or_false, Prod.mk.injEq] at named
    rcases named with ⟨_, rfl⟩ | ⟨_, rfl⟩ <;> exact ⟨by decide, by decide⟩
  obtain ⟨text', answer⟩ := compileSqlCached_extends ⟨.ofLayer ordersLayer, ordersLayer⟩ .sqlite _ _ _ _ larger plain
    returned
  exact ⟨text, text', returned, answer⟩

end SemanticLayer
