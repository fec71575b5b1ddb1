import SemanticLayer.Proofs.JoinPlaces

/-! # What joins leave as it is

Before joins are added, the first `*` of a SELECT is written out as one wildcard for each relation of its FROM clause,
so that the joined models are not meant. Apart from that, joining qualifies names and appends joins.
-/

namespace SemanticLayer

open Sql List

def sourceRelations (source : List (FromItem Query)) : List (Relation Query) := source.flatMap FromItem.relations

/-- The relations that a place in a SELECT stands for. -/
def Place.covers (source : List (FromItem Query)) : Place → List (Relation Query)
  | .wildcard => sourceRelations source
  | .qualifiedWildcard name =>
    (sourceRelations source).filter fun r => relationName? r = some (DottedName.suffix name.values)
  | _ => []

/-- The relation that a wildcard names. -/
def Place.name? : Place → Option Path
  | .qualifiedWildcard name => some name
  | _ => none

/-- The relations that the wildcards of a SELECT stand for. -/
def Clauses.covered (a : Clauses) (source : List (FromItem Query)) : List (Relation Query) :=
  a.places.flatMap fun p => p.1.covers source

/-- There is one `*` at most, and if there is one, the relations have different names. Other wildcards name a
relation. -/
def Clauses.Spreadable (a : Clauses) : Prop :=
  a.places.countP (·.1 = .wildcard) ≤ 1 ∧
  (∀ p ∈ a.places, p.1 = .wildcard → none ∉ (sourceRelations a.select.source).map relationName? ∧
    ((sourceRelations a.select.source).map relationName?).Nodup) ∧
  ∀ p ∈ a.places, ∀ name ∈ p.1.name?,
    some (DottedName.suffix name.values) ∈ (sourceRelations a.select.source).map relationName?
  deriving Decidable

section Covering

variable {source source' kept : List (FromItem Query)} {joins : List RelatedJoin}

theorem names_eq (source : List (FromItem Query)) :
    source.flatMap relationNames = (sourceRelations source).filterMap relationName? :=
  filterMap_flatMap.symm

theorem mem_names {name : String} :
    some name ∈ (sourceRelations source).map relationName? ↔ name ∈ source.flatMap relationNames := by
  rw [names_eq, mem_map, mem_filterMap]

theorem Place.OverAll.covers {added : Prop} {r : Expr Query → Expr Query → Prop} {l l' : List (Place × Expr Query)}
    (outlined : Place.OverAll added r l l') :
    (l'.flatMap fun p => p.1.covers source) = l.flatMap fun p => p.1.covers source := by
  induction outlined with
  | nil => rfl
  | cons here _ ih => rw [flatMap_cons, flatMap_cons, here.1, ih]
  | key _ key _ ih =>
    rw [flatMap_cons, key, ih]
    rfl

/-- A wildcard for a relation of the FROM clause does not stand for joins. -/
theorem Place.covers_placeJoins {name : Path}
    (known : some (DottedName.suffix name.values) ∈ (sourceRelations kept).map relationName?) :
    (Place.qualifiedWildcard name).covers (placeJoins joins kept) = (Place.qualifiedWildcard name).covers kept := by
  simp only [Place.covers, sourceRelations, filter_flatMap]
  refine Context.flatMap_eq_of_forall₂ ((placeJoins_receives joins kept).imp ?_)
  rintro item _ ⟨added, rfl, each⟩
  rw [FromItem.relations_plus, filter_append]
  refine (congrArg _ (filter_eq_nil_iff.mpr ?_)).trans (append_nil _)
  intro r member named
  obtain ⟨j, listed, rfl⟩ := mem_map.mp member
  have label : relationName? j.toJoin.relation = some j.label := by
    simp [RelatedJoin.toJoin, Join.relation, relationName?]
  rw [label, decide_eq_true_eq, Option.some.injEq] at named
  rw [← named] at known
  exact (each j listed).2.1 (mem_names.mp known)

theorem flatMap_filter_name {α : Type} {f : α → Option String} {l : List α} (all : none ∉ l.map f)
    (distinct : (l.map f).Nodup) : ((l.filterMap f).flatMap fun name => l.filter fun a => f a = some name) = l := by
  have single : ∀ a ∈ l, (l.filter fun b => f b = f a) = [a] := by
    intro a member
    obtain ⟨before, after, rfl⟩ := append_of_mem member
    rw [Nodup, pairwise_map, pairwise_append, pairwise_cons] at distinct
    obtain ⟨_, ⟨later, _⟩, earlier⟩ := distinct
    rw [filter_append, filter_cons_of_pos (by simp), filter_eq_nil_iff.mpr, filter_eq_nil_iff.mpr]
    · rfl
    · exact fun b listed same => later b listed (of_decide_eq_true same).symm
    · exact fun b listed same => earlier b listed a mem_cons_self (of_decide_eq_true same)
  rw [filterMap_eq_flatMap_toList, flatMap_assoc]
  refine (flatMap_congr fun a member => ?_).trans (flatMap_singleton' l)
  cases named : f a with
  | none => exact absurd (mem_map.mpr ⟨a, member, named⟩) all
  | some name => simpa [named] using single a member

/-- Writing the only `*` out keeps what it stands for, also if joins are added. -/
theorem covers_spreadPlaces {l : List (Place × Expr Query)} (once : l.countP (·.1 = .wildcard) ≤ 1)
    (named : ∀ p ∈ l, p.1 = .wildcard → none ∉ (sourceRelations kept).map relationName? ∧
      ((sourceRelations kept).map relationName?).Nodup) (known : ∀ p ∈ l, ∀ name ∈ p.1.name?,
      some (DottedName.suffix name.values) ∈ (sourceRelations kept).map relationName?) :
    ((spreadPlaces (kept.flatMap relationNames) l).flatMap fun p => p.1.covers (placeJoins joins kept)) =
      l.flatMap fun p => p.1.covers kept := by
  have other : ∀ p : Place × Expr Query, p.1 ≠ .wildcard →
      (∀ name ∈ p.1.name?, some (DottedName.suffix name.values) ∈ (sourceRelations kept).map relationName?) →
      p.1.covers (placeJoins joins kept) = p.1.covers kept := by
    rintro ⟨place, e⟩ single known
    cases place with
    | wildcard => exact absurd rfl single
    | qualifiedWildcard name => exact Place.covers_placeJoins (known name rfl)
    | _ => rfl
  induction l with
  | nil => rfl
  | cons p rest ih =>
    obtain ⟨here, later⟩ := forall_mem_cons.mp known
    by_cases wild : p.1 = .wildcard
    · obtain ⟨_, e⟩ := p
      obtain rfl := wild
      obtain ⟨all, distinct⟩ := named _ mem_cons_self rfl
      have none : rest.countP (·.1 = .wildcard) = 0 := by simpa using once
      rw [spreadPlaces, flatMap_append, flatMap_cons, flatMap_map]
      refine congrArg₂ _ ?_ (flatMap_congr fun p member => other p ?_ (later p member))
      · refine (flatMap_congr fun name listed => ?_).trans (names_eq kept ▸ flatMap_filter_name all distinct)
        have written : DottedName.suffix (Path.values [.ofName name]) = name := by
          simp [DottedName.suffix, Path.values]
        rw [Place.covers_placeJoins (written.symm ▸ mem_names.mpr listed), Place.covers, written]
      · simpa using countP_eq_zero.mp none p member
    · have spread : ∀ names, spreadPlaces names (p :: rest) = p :: spreadPlaces names rest := by
        obtain ⟨place, e⟩ := p
        cases place with
        | wildcard => exact absurd rfl wild
        | _ => exact fun _ => rfl
      rw [spread, flatMap_cons, flatMap_cons, other p wild here,
        ih (by simpa [wild] using once) (fun p member => named p (mem_cons_of_mem _ member)) later]

end Covering

namespace Context

variable {c : Context}

/-- Where no joins are added or the wildcards can be spread, these stand for the same relations as before. -/
def KeepsWildcards (_ : Scope → Query → Query → Prop) (_ : Scope) (kept : List (FromItem Query))
    (joins : List RelatedJoin) (a a' : Clauses) : Prop :=
  joins = [] ∨ a.Spreadable → a'.covered a'.select.source = a.covered kept

theorem JoinedBy.keepsWildcards {rule : JoinRule} {related : Scope → Query → Query → Prop} {s : Scope}
    {kept : List (FromItem Query)} {joins : List RelatedJoin} {a a' : Clauses}
    (joined : c.JoinedBy rule related s kept joins a a') : KeepsWildcards related s kept joins a a' := by
  intro spreadable
  have outlined := joined.clauses
  rw [Clauses.covered, joined.source, outlined.places.covers]
  unfold Clauses.spreadFor at outlined ⊢
  have same : (sourceRelations kept).map relationName? = (sourceRelations a.select.source).map relationName? := by
    simp only [sourceRelations, map_flatMap]
    exact flatMap_eq_of_forall₂ (joined.items.imp fun _ _ h => h.named)
  cases joins with
  | nil => rfl
  | cons j joins =>
    obtain ⟨once, named, known⟩ := spreadable.resolve_left (cons_ne_nil _ _)
    have names : a.select.source.flatMap relationNames = kept.flatMap relationNames :=
      (flatMap_eq_of_forall₂ (joined.items.imp fun _ _ h => h.relationNames)).symm
    rw [← same] at named known
    rw [if_neg (by simp), Clauses.places_spread, names]
    exact covers_spreadPlaces once named known

/-- Wildcards keep what they stand for, both if related models are joined and if the keys of related models are. -/
theorem wildcards_kept (c : Context) (q q' : Query) :
    (c.compileRelationships q = .ok q' → c.JoinedAs (.dereferencing c.layer) KeepsWildcards q q') ∧
    (c.compileGroupKeys q = .ok q' → c.JoinedAs .keying KeepsWildcards q q') :=
  ⟨compileJoins_as (dereferencing_describes c.layer) (fun _ _ _ _ _ _ joined => joined.keepsWildcards) q q',
    compileJoins_as (keying_describes c.layer) (fun _ _ _ _ _ _ joined => joined.keepsWildcards) q q'⟩

/-- A relationship and a group key, with two wildcards. -/
theorem album_wildcards_kept : ∃ q q',
    readQuery "SELECT raw_t.*, *, band.name FROM Album, raw_t GROUP BY band" = .ok q ∧
    sampleContext.compileRelationships q = .ok q' ∧ (joinCounts q' = [[1, 0]] ∧
      (∀ a ∈ q.body.selects q.orderBy, a.Spreadable) ∧
      (sampleContext.compileGroupKeys q).toOption.map joinCounts = some [[1, 0]]) ∧
    sampleContext.JoinedAs (.dereferencing sampleContext.layer) KeepsWildcards q q' ∧
    ∃ q'', sampleContext.compileGroupKeys q = .ok q'' ∧ sampleContext.JoinedAs .keying KeepsWildcards q q'' := by
  refine sample_run (by decide +kernel) fun q q' compiled facts => ⟨(wildcards_kept _ q q').1 compiled, ?_⟩
  obtain ⟨q'', keyed, _⟩ := Option.map_eq_some_iff.mp facts.2.2
  rw [toOption_eq_some_iff] at keyed
  exact ⟨q'', keyed, (wildcards_kept _ q q'').2 keyed⟩

/-- FROM items get joins of models. If there is no `*`, or if no relationship column of a relation in the FROM clause is
used, nothing else is done to the SELECT but to write its names and nested queries over. -/
def OnlyJoins (c : Context) (related : Scope → Query → Query → Prop) (s : Scope) (kept : List (FromItem Query))
    (_ : List RelatedJoin) (a a' : Clauses) : Prop :=
  Forall₂ (fun item item' => ∃ added, item' = item.plus added ∧ ∀ j ∈ added, (c.layer.model? j.target).isSome)
    kept a'.select.source ∧
  (((∃ f, c.Used Scope.GoesThrough s a f ∧ (c.frame a).Owns f.qualifier) → ∀ p ∈ a.places, p.1 ≠ .wildcard) →
    a.Over False (Expr.Over ((JoinRule.dereferencing c.layer).renamed s) (related s)) a')

/-- Compiling relationships only qualifies names and appends joins. -/
theorem compileRelationships_only_joins {q q' : Query} (compiled : c.compileRelationships q = .ok q') :
    c.JoinedAs (.dereferencing c.layer) c.OnlyJoins q q' := by
  refine compileJoins_as (dereferencing_describes c.layer)
    (fun related parent kept joins a a' joined => ⟨?_, ?_⟩) q q' compiled
  · rw [joined.source]
    refine (placeJoins_receives joins kept).imp ?_
    rintro item _ ⟨added, rfl, each⟩
    refine ⟨added, rfl, fun j member => ?_⟩
    obtain ⟨f, _, answers⟩ := joined.collects.sound j (each j member).1
    exact answers.model
  · intro unspread
    have outlined := joined.clauses
    unfold Clauses.spreadFor at outlined
    cases joins with
    | nil => exact outlined
    | cons j joins =>
      obtain ⟨f, used, _⟩ := joined.collects.sound j mem_cons_self
      have places := outlined.places
      rw [if_neg (by simp), Clauses.places_spread, spreadPlaces_eq_self _ (unspread ⟨f, used⟩)] at places
      rw [if_neg (by simp)] at outlined
      exact ⟨places, outlined.rest⟩

/-- A wildcard for one relation is no obstacle. -/
theorem album_columns_and_band : ∃ q q', readQuery "SELECT Album.*, band.name FROM Album" = .ok q ∧
    sampleContext.compileRelationships q = .ok q' ∧ (joinCounts q' = [[1]] ∧
      ∀ a ∈ q.body.selects q.orderBy, ∀ p ∈ a.places, p.1 ≠ .wildcard) ∧
    sampleContext.JoinedAs (.dereferencing sampleContext.layer) sampleContext.OnlyJoins q q' :=
  sample_run (by decide +kernel) fun _ _ compiled _ => compileRelationships_only_joins compiled

/-- A relation may be called like a join that is asked for. Then no join is added, but `*` is written out. -/
theorem wildcard_spread_without_join : ∃ q q',
    readQuery "SELECT *, band.name FROM Album LEFT JOIN Band AS Album_band ON true" = .ok q ∧
    sampleContext.compileRelationships q = .ok q' ∧ joinCounts q' = joinCounts q ∧
    ∀ a ∈ q.body.selects q.orderBy, ∀ a' ∈ q'.body.selects q'.orderBy, a'.places.length ≠ a.places.length :=
  returns_two (by decide +kernel) fun _ _ _ holds => holds

end Context

end SemanticLayer
