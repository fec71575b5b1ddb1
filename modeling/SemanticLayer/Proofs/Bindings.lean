import Mathlib.Data.List.Nodup
import SemanticLayer.Proofs.Entries
import SemanticLayer.Proofs.Findings

/-! # Names bound by a WITH clause

An entry is visible to the entries behind it. Putting the entries in order never moves an entry behind one
that reads it, so a name that was bound stays bound to the same entry. What it may do is to move an entry in
front of an earlier one that mentions its name.
-/

namespace SemanticLayer

open List

open Sql (Query Cte)

namespace With

variable {q : Query} {cte e x : Cte Query} {name : String} {l others : List (Cte Query)}

/-- The entry that a name means in the query of the entry `reader`; a table outside if there is none. -/
def bound? (q : Query) (reader name : String) : Option (Cte Query) :=
  (q.ctes.takeWhile (nameOf · != reader)).find? (nameOf · == name)

section Positions

theorem eq_of_nameOf (distinct : (l.map nameOf).Nodup) (here : e ∈ l) (there : cte ∈ l)
    (same : nameOf e = nameOf cte) : e = cte :=
  inj_on_of_nodup_map distinct here there same

theorem ne_of_before (distinct : (l.map nameOf).Nodup) (before : [e, cte].Sublist l) : nameOf e ≠ nameOf cte := by
  have apart : [nameOf e, nameOf cte].Nodup := distinct.sublist (before.map nameOf)
  simpa using apart

theorem mem_takeWhile_iff (distinct : (l.map nameOf).Nodup) (member : cte ∈ l) :
    e ∈ l.takeWhile (nameOf · != nameOf cte) ↔ [e, cte].Sublist l := by
  constructor
  · intro early
    have late : cte ∈ l.dropWhile (nameOf · != nameOf cte) := by
      rw [← takeWhile_append_dropWhile (p := (nameOf · != nameOf cte)) (l := l)] at member
      rcases mem_append.mp member with front | back
      · have other := all_eq_true.mp all_takeWhile cte front
        simp at other
      · exact back
    rw [← takeWhile_append_dropWhile (p := (nameOf · != nameOf cte)) (l := l)]
    exact (singleton_sublist.mpr early).append (singleton_sublist.mpr late)
  · intro before
    induction l with
    | nil => cases before
    | cons first l ih =>
      obtain ⟨fresh, distinct'⟩ := nodup_cons.mp distinct
      have other : nameOf first ≠ nameOf cte := by
        intro same
        have behind : cte ∈ l := singleton_sublist.mp before.tail
        exact fresh (same ▸ mem_map_of_mem behind)
      rw [takeWhile_cons_of_pos (by simpa using other)]
      cases before with
      | cons _ rest => exact mem_cons_of_mem _ (ih distinct' (rest.subset (by simp)) rest)
      | cons_cons _ rest => exact mem_cons_self

/-- A name means the entry of that name that stands before the reader. -/
theorem bound?_eq_some_iff (distinct : (names q).Nodup) (member : cte ∈ q.ctes) :
    bound? q (nameOf cte) name = some e ↔ nameOf e = name ∧ [e, cte].Sublist q.ctes := by
  rw [← mem_takeWhile_iff distinct member]
  unfold bound?
  constructor
  · intro found
    exact ⟨by simpa using find?_some found, mem_of_find?_eq_some found⟩
  · rintro ⟨rfl, front⟩
    cases found : (q.ctes.takeWhile (nameOf · != nameOf cte)).find? (nameOf · == nameOf e) with
    | none => exact absurd (beq_self_eq_true _) (find?_eq_none.mp found e front)
    | some other =>
      have same : nameOf other = nameOf e := by simpa using find?_some found
      have entries := (takeWhile_sublist (l := q.ctes) (nameOf · != nameOf cte)).subset
      rw [eq_of_nameOf distinct (entries (mem_of_find?_eq_some found)) (entries front) same]

theorem before_or_behind (here : e ∈ l) (there : cte ∈ l) (different : nameOf e ≠ nameOf cte) :
    [e, cte].Sublist l ∨ [cte, e].Sublist l := by
  obtain ⟨early, late, rfl⟩ := append_of_mem here
  rcases mem_append.mp there with front | back
  · have tail : [e].Sublist (e :: late) := singleton_sublist.mpr mem_cons_self
    exact .inr ((singleton_sublist.mpr front).append tail)
  · rcases mem_cons.mp back with rfl | back
    · exact absurd rfl different
    · have pair : [e, cte].Sublist (e :: late) := (singleton_sublist.mpr back).cons_cons e
      exact .inl (pair.trans (sublist_append_right early _))

end Positions

section Sorting

/-- An entry that is taken out leaves the order of the others as it was. -/
theorem before_of_extract {p : Cte Query → Bool} (extracted : extract? p l = some (x, others))
    (before : [e, cte].Sublist l) (left : nameOf e ≠ nameOf x) (right : nameOf cte ≠ nameOf x) :
    [e, cte].Sublist others := by
  have kept : (l.filter (nameOf · != nameOf x)).Sublist others := by
    obtain ⟨front, back, rfl, rfl, _⟩ := extract_split extracted
    rw [filter_append, filter_cons_of_neg (by simp)]
    exact filter_sublist.append filter_sublist
  have pair := before.filter (nameOf · != nameOf x)
  rw [filter_eq_self.mpr (by simp [left, right])] at pair
  exact pair.trans kept

/-- An entry that stands before one that reads it is taken first: the reader is not ready while the entry
is pending, and it is not the first one pending either. -/
theorem orderFrom_before {reads : Cte Query → List String} {n : Nat} {done : List String} {pending : List (Cte Query)}
    (distinct : (done ++ pending.map nameOf).Nodup) (before : [e, cte].Sublist pending) (read : nameOf e ∈ reads cte) :
    [e, cte].Sublist (orderFrom reads n done pending) := by
  induction n generalizing done pending with
  | zero => exact before
  | succ n ih =>
    have apart : (pending.map nameOf).Nodup := (nodup_append.mp distinct).2.1
    have here : e ∈ pending := before.subset (by simp)
    have there : cte ∈ pending := before.subset (by simp)
    -- what follows once an entry other than the reader is taken
    have next : ∀ x others, pending.Perm (x :: others) → nameOf cte ≠ nameOf x →
        (nameOf e ≠ nameOf x → [e, cte].Sublist others) →
        [e, cte].Sublist (x :: orderFrom reads n (nameOf x :: done) others) := by
      intro x others split right kept
      by_cases left : nameOf e = nameOf x
      · have first : x ∈ pending := split.mem_iff.mpr mem_cons_self
        cases eq_of_nameOf apart here first left
        have later : cte ∈ others := by
          rcases mem_cons.mp (split.mem_iff.mp there) with rfl | later
          · exact absurd rfl right
          · exact later
        exact (singleton_sublist.mpr ((orderFrom_perm _ _ _ _).mem_iff.mpr later)).cons_cons _
      · apply Sublist.cons
        apply ih _ (kept left)
        have moved : (done ++ pending.map nameOf).Perm (nameOf x :: done ++ others.map nameOf) :=
          ((split.map nameOf).append_left done).trans perm_middle
        exact moved.nodup_iff.mp distinct
    unfold orderFrom
    cases extracted : extract? (fun cte => (reads cte).all done.contains) pending with
    | some found =>
      obtain ⟨x, others⟩ := found
      have first : x ∈ pending := (extract_perm extracted).mem_iff.mpr mem_cons_self
      have right : nameOf cte ≠ nameOf x := by
        intro same
        cases eq_of_nameOf apart there first same
        have ready := extract_holds extracted
        have emitted : nameOf e ∈ done := by simpa using all_eq_true.mp ready _ read
        exact (nodup_append.mp distinct).2.2 _ emitted _ (mem_map_of_mem here) rfl
      apply next x others (extract_perm extracted) right
      intro left
      exact before_of_extract extracted before left right
    | none =>
      cases pending with
      | nil => cases before
      | cons x others =>
        obtain ⟨fresh, _⟩ := nodup_cons.mp apart
        have behind : cte ∈ others := singleton_sublist.mp before.tail
        have right : nameOf cte ≠ nameOf x := by
          intro same
          exact fresh (same ▸ mem_map_of_mem behind)
        apply next x others (.refl _) right
        intro left
        cases before with
        | cons _ rest => exact rest
        | cons_cons _ rest => exact absurd rfl left

theorem sort_before (plain : q.recursive = false) (distinct : (names q).Nodup) (before : [e, cte].Sublist q.ctes)
    (read : nameOf e ∈ cte.query.relations) : [e, cte].Sublist (sort q).ctes := by
  have entry : nameOf e ∈ names q := mem_names_of_mem (before.subset (by simp))
  unfold sort
  rw [if_neg (by simp [plain])]
  apply orderFrom_before distinct before
  apply mem_filter.mpr
  exact ⟨read, by simp [entry, ne_of_before distinct before]⟩

/-- A name in the query of an entry means what it meant before the entries were put in order, unless it meant
a table outside and a later entry bears it: that one may have come to stand in front. -/
theorem sort_keeps_binding {c : Context} {a : Analysis} (analyzed : c.analyze q = .ok a)
    (plain : q.recursive = false) (member : cte ∈ q.ctes) (read : name ∈ cte.query.relations) :
    bound? (sort q) (nameOf cte) name = bound? q (nameOf cte) name ∨
      bound? q (nameOf cte) name = none ∧ ∃ later, nameOf later = name ∧ [cte, later].Sublist q.ctes ∧
        bound? (sort q) (nameOf cte) name = some later := by
  have distinct := Context.names_nodup_of_analyze analyzed
  have reordered := sort_reordered q
  have distinct' : (names (sort q)).Nodup := reordered.names_perm.nodup_iff.mpr distinct
  have member' : cte ∈ (sort q).ctes := reordered.perm.mem_iff.mpr member
  cases old : bound? q (nameOf cte) name with
  | some e =>
    obtain ⟨rfl, before⟩ := (bound?_eq_some_iff distinct member).mp old
    exact .inl ((bound?_eq_some_iff distinct' member').mpr ⟨rfl, sort_before plain distinct before read⟩)
  | none =>
    cases new : bound? (sort q) (nameOf cte) name with
    | none => exact .inl rfl
    | some later =>
      obtain ⟨rfl, before'⟩ := (bound?_eq_some_iff distinct' member').mp new
      have here : later ∈ q.ctes := reordered.perm.mem_iff.mp (before'.subset (by simp))
      rcases before_or_behind here member (ne_of_before distinct' before') with before | behind
      · rw [(bound?_eq_some_iff distinct member).mpr ⟨rfl, before⟩] at old
        cases old
      · exact .inr ⟨rfl, later, rfl, behind, rfl⟩

def bareLayer : Layer := ⟨{ catalog := "mdl", schema := "test" }, rfl⟩

/-- The name `a` stays bound, although an entry is put in front of the one that mentions it. -/
theorem sort_keeps_binding_of_first : ∃ q a cte,
    readQuery "WITH a AS (SELECT 1 AS x), b AS (SELECT * FROM c, a), c AS (SELECT 2 AS y) SELECT * FROM b" = .ok q ∧
    Context.analyze ⟨.ofLayer bareLayer, bareLayer⟩ q = .ok a ∧ q.recursive = false ∧ cte ∈ q.ctes ∧
    nameOf cte = "b" ∧ "a" ∈ cte.query.relations ∧ names (sort q) = ["a", "c", "b"] ∧
    (bound? q "b" "a").map nameOf = some "a" ∧ bound? (sort q) "b" "a" = bound? q "b" "a" := by
  have run : ∃ q, readQuery
      "WITH a AS (SELECT 1 AS x), b AS (SELECT * FROM c, a), c AS (SELECT 2 AS y) SELECT * FROM b" = .ok q ∧
      ∃ a, Context.analyze ⟨.ofLayer bareLayer, bareLayer⟩ q = .ok a ∧ q.recursive = false ∧
        ∃ cte ∈ q.ctes, nameOf cte = "b" ∧ "a" ∈ cte.query.relations ∧ names (sort q) = ["a", "c", "b"] ∧
          (bound? q "b" "a").map nameOf = some "a" := by
    decide +kernel
  obtain ⟨q, read, a, analyzed, plain, cte, member, named, mentioned, order, bound⟩ := run
  refine ⟨q, a, cte, read, analyzed, plain, member, named, mentioned, order, bound, ?_⟩
  rcases sort_keeps_binding analyzed plain member mentioned with same | ⟨free, _⟩
  · rw [named] at same
    exact same
  · rw [named] at free
    rw [free] at bound
    cases bound

/-- Entries are put in order even if that binds a name that was free: here `a` is mentioned before it is
defined. -/
theorem sort_binds_later : ¬ ∀ (c : Context) (q : Query) (a : Analysis), c.analyze q = .ok a → q.recursive = false →
    ∀ cte ∈ q.ctes, ∀ name ∈ cte.query.relations, c.layer.kind? name = none →
      bound? (sort q) (nameOf cte) name = bound? q (nameOf cte) name := by
  have run : ∃ q, readQuery "WITH b AS (SELECT * FROM a), a AS (SELECT 1 AS x) SELECT * FROM b" = .ok q ∧
      ∃ a, Context.analyze ⟨.ofLayer bareLayer, bareLayer⟩ q = .ok a ∧ q.recursive = false ∧
        ∃ cte ∈ q.ctes, nameOf cte = "b" ∧ "a" ∈ cte.query.relations ∧
          (bound? (sort q) "b" "a").map nameOf ≠ (bound? q "b" "a").map nameOf := by
    decide +kernel
  obtain ⟨q, _, a, analyzed, plain, cte, member, named, mentioned, apart⟩ := run
  intro claim
  have same := claim _ q a analyzed plain cte member "a" mentioned rfl
  rw [named] at same
  exact apart (congrArg _ same)

end Sorting

end With

end SemanticLayer
