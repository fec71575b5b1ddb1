import SemanticLayer.Proofs.Dereferencing
import SemanticLayer.Proofs.Orders
import SemanticLayer.Proofs.Pruning

/-! # Support of WITH entries

Entries of objects are dropped in rounds, since an entry that goes may have been the only one to refer to another.
What is left is the greatest set of entries that support each other. A circle of entries supports itself; without
one, the objects that are left are those to which a chain of references leads from the query or from an entry that
is no object.
-/

namespace SemanticLayer

open List

open Sql (Query Cte Body)
open Context (sampleLayer)

def Sql.Body.RefersTo (b : Body Query) (part : String) : Prop :=
  (∃ name ∈ b.tableNames, name.values.getLast? = some part) ∨ ∃ x ∈ b.queries, x.RefersTo part

theorem Sql.Body.mem_relations_iff {b : Body Query} {part : String} : part ∈ b.relations ↔ b.RefersTo part := by
  simp only [Body.relations, Sql.lastParts, mem_append, mem_filterMap, mem_flatMap,
    Query.mem_relations_iff, Body.RefersTo]

namespace With

variable {l : Layer} {q q' : Query} {cte e : Cte Query}

/-- The body or the ORDER BY of a query refers to a name. -/
def RefersDirectly (q : Query) (part : String) : Prop :=
  q.body.RefersTo part ∨ ∃ item ∈ q.orderBy, ∃ x ∈ item.expr.queries, x.RefersTo part

/-- Each object among some entries is referred to by the query itself or by an entry of another name among them. -/
def SelfSupported (l : Layer) (q : Query) (kept : Cte Query → Prop) : Prop :=
  ∀ cte, kept cte → l.kind? (nameOf cte) ≠ none →
    RefersDirectly q (nameOf cte) ∨ ∃ other, kept other ∧ nameOf other ≠ nameOf cte ∧ other.query.RefersTo (nameOf cte)

/-- The entry of an object depends on that of another object. -/
structure ObjectDependsOn (l : Layer) (q : Query) (cte e : Cte Query) : Prop extends DependsOn q cte e where
  readerObject : l.kind? (nameOf cte) ≠ none
  entryObject : l.kind? (nameOf e) ≠ none

/-- A chain of references leads to an entry, from the query itself or from an entry that is no object. -/
inductive Reached (l : Layer) (q : Query) : Cte Query → Prop
  | direct {cte : Cte Query} : cte ∈ q.ctes → RefersDirectly q (nameOf cte) → Reached l q cte
  | user {reader cte : Cte Query} : l.kind? (nameOf reader) = none → DependsOn q reader cte → Reached l q cte
  | through {reader cte : Cte Query} : Reached l q reader → DependsOn q reader cte → Reached l q cte

theorem Reached.mem (reached : Reached l q cte) : cte ∈ q.ctes := by
  cases reached with
  | direct member _ => exact member
  | user _ depends => exact depends.entry
  | through _ depends => exact depends.entry

theorem mem_mentioned_iff {name : String} : name ∈ mentioned q ↔
    RefersDirectly q name ∨ ∃ other ∈ q.ctes, nameOf other ≠ name ∧ other.query.RefersTo name := by
  simp only [mentioned, mem_append, mem_flatMap, mem_filter, bne_iff_ne, Body.mem_relations_iff,
    Query.mem_relations_iff, RefersDirectly, ne_comm, and_comm]

theorem supported_iff (rest : SameBody q q') : Supported l q' ↔ SelfSupported l q (· ∈ q'.ctes) := by
  simp only [Supported, SelfSupported, mem_mentioned_iff, RefersDirectly, rest.body, rest.orderBy]

section Rounds

/-- Rounds of dropping, the given number of them, until nothing is left or a round drops nothing. -/
inductive Rounds (l : Layer) : Nat → Query → Query → Prop
  | emptied {q : Query} : (pruneOnce l q).ctes = [] → Rounds l 1 q { pruneOnce l q with recursive := false }
  | settled {q : Query} : (pruneOnce l q).ctes ≠ [] → (pruneOnce l q).ctes = q.ctes → Rounds l 1 q (pruneOnce l q)
  | again {n : Nat} {q q' : Query} : (pruneOnce l q).ctes ≠ [] → (pruneOnce l q).ctes ≠ q.ctes →
      Rounds l n (pruneOnce l q) q' → Rounds l (n + 1) q q'

/-- Every round but the last one drops an entry, so that there is an end to it. -/
theorem prune_rounds (l : Layer) (q : Query) : ∃ n ≤ q.ctes.length + 1, Rounds l n q (prune l q) := by
  have upTo : ∀ m q, q.ctes.length < m → ∃ n ≤ q.ctes.length + 1, Rounds l n q (pruneUpTo l m q) := by
    intro m
    induction m with
    | zero => exact fun q low => absurd low (Nat.not_lt_zero _)
    | succ m ih =>
      intro q low
      have fewer : (pruneOnce l q).ctes.Sublist q.ctes := filter_sublist
      rw [pruneUpTo]
      split
      · rename_i empty
        exact ⟨1, Nat.le_add_left _ _, .emptied (isEmpty_iff.mp empty)⟩
      · rename_i left
        have left : (pruneOnce l q).ctes ≠ [] := fun empty => left (isEmpty_iff.mpr empty)
        split
        · rename_i same
          exact ⟨1, Nat.le_add_left _ _, .settled left (fewer.eq_of_length (beq_iff_eq.mp same))⟩
        · rename_i dropped
          have dropped : (pruneOnce l q).ctes ≠ q.ctes := fun same => dropped (by rw [same, beq_self_eq_true])
          have shorter : (pruneOnce l q).ctes.length < q.ctes.length :=
            Nat.lt_of_le_of_ne fewer.length_le fun same => dropped (fewer.eq_of_length same)
          obtain ⟨n, few, rounds⟩ := ih (pruneOnce l q) (by omega)
          exact ⟨n + 1, by omega, .again left dropped rounds⟩
  exact upTo _ q (Nat.lt_succ_self _)

end Rounds

theorem mem_prune_of_selfSupported (kept : Cte Query → Prop) (within : ∀ cte, kept cte → cte ∈ q.ctes)
    (supported : SelfSupported l q kept) (member : kept cte) : cte ∈ (prune l q).ctes := by
  classical
  let chosen : Query := { q with ctes := q.ctes.filter fun cte => decide (kept cte) }
  have rest : SameBody q chosen := ⟨rfl, rfl, rfl, rfl⟩
  have chosen_iff : ∀ cte, cte ∈ chosen.ctes ↔ kept cte := by
    intro cte
    rw [mem_filter, decide_eq_true_iff]
    exact and_iff_right_of_imp (within cte)
  have alike : SelfSupported l q (· ∈ chosen.ctes) := by
    simpa only [SelfSupported, chosen_iff] using supported
  have all := prune_greatest rest filter_sublist ((supported_iff rest).mpr alike)
  exact all.subset ((chosen_iff cte).mpr member)

/-- Together with the entries that are no objects, those that are reached support each other. -/
theorem mem_prune_of_reached (reached : Reached l q cte) : cte ∈ (prune l q).ctes := by
  let kept (cte : Cte Query) : Prop := Reached l q cte ∨ cte ∈ q.ctes ∧ l.kind? (nameOf cte) = none
  refine mem_prune_of_selfSupported kept ?_ ?_ (.inl reached)
  · rintro cte (reached | ⟨member, _⟩)
    · exact reached.mem
    · exact member
  · rintro cte (reached | ⟨_, free⟩) object
    · cases reached with
      | direct _ refers => exact .inl refers
      | user free depends => exact .inr ⟨_, .inr ⟨depends.reader, free⟩, depends.other.symm, depends.refers⟩
      | through reached depends => exact .inr ⟨_, .inl reached, depends.other.symm, depends.refers⟩
    · exact absurd free object

/-- Of the objects that are left and not reached, one would not be referred to by another such one, if there is no
    circle. What else it is referred to by would reach it. -/
theorem reached_of_mem_prune (acyclic : ∀ cte, ¬Relation.TransGen (ObjectDependsOn l q) cte cte)
    (object : l.kind? (nameOf cte) ≠ none) (member : cte ∈ (prune l q).ctes) : Reached l q cte := by
  classical
  by_contra missed
  let lost := (prune l q).ctes.filter fun e => decide (l.kind? (nameOf e) ≠ none ∧ ¬Reached l q e)
  have lost_iff : ∀ e, e ∈ lost ↔ e ∈ (prune l q).ctes ∧ l.kind? (nameOf e) ≠ none ∧ ¬Reached l q e := by
    intro e
    rw [mem_filter, decide_eq_true_iff]
  have nonempty : lost ≠ [] := ne_nil_of_mem ((lost_iff cte).mpr ⟨member, object, missed⟩)
  have acyclic' : ∀ e, ¬Relation.TransGen (Function.swap (ObjectDependsOn l q)) e e :=
    fun e circle => acyclic e (Relation.transGen_swap.mp circle)
  obtain ⟨first, there, unread⟩ := exists_mem_without_successor acyclic' nonempty
  obtain ⟨left, object, missed⟩ := (lost_iff first).mp there
  have pruned := prune_pruned l q
  rcases (supported_iff pruned.rest).mp (prune_supported l q) first left object with refers | reader
  · exact missed (.direct (pruned.fewer.subset left) refers)
  · obtain ⟨reader, kept, other, refers⟩ := reader
    have depends : DependsOn q reader first :=
      ⟨pruned.fewer.subset kept, pruned.fewer.subset left, other.symm, refers⟩
    by_cases free : l.kind? (nameOf reader) = none
    · exact missed (.user free depends)
    · by_cases reached : Reached l q reader
      · exact missed (.through reached depends)
      · exact unread reader ((lost_iff reader).mpr ⟨kept, free, reached⟩) (.single ⟨depends, free, object⟩)

/-- Dropping entries ends, and changes nothing but that entries of objects are missing. Those that are left support
    each other, and all entries that do are left. If no objects depend on each other in a circle, the objects that are
    left are those that are reached. -/
theorem prune_greatest_support (l : Layer) (q : Query) : (∃ n ≤ q.ctes.length + 1, Rounds l n q (prune l q)) ∧
    SameBody q (prune l q) ∧ (prune l q).ctes.Sublist q.ctes ∧
    (∀ cte ∈ q.ctes, l.kind? (nameOf cte) = none → cte ∈ (prune l q).ctes) ∧
    SelfSupported l q (· ∈ (prune l q).ctes) ∧
    (∀ kept : Cte Query → Prop, (∀ cte, kept cte → cte ∈ q.ctes) → SelfSupported l q kept →
      ∀ cte, kept cte → cte ∈ (prune l q).ctes) ∧
    ((∀ cte, ¬Relation.TransGen (ObjectDependsOn l q) cte cte) → ∀ cte ∈ q.ctes, l.kind? (nameOf cte) ≠ none →
      (cte ∈ (prune l q).ctes ↔ Reached l q cte)) := by
  have pruned := prune_pruned l q
  refine ⟨prune_rounds l q, pruned.rest, pruned.fewer, fun cte member free => pruned.kept cte member (.inl free),
    (supported_iff pruned.rest).mp (prune_supported l q), fun kept within supported cte member => ?_,
    fun acyclic cte _ object => ⟨reached_of_mem_prune acyclic object, mem_prune_of_reached⟩⟩
  exact mem_prune_of_selfSupported kept within supported member

/-- Revenue goes in the first round and orders, which only revenue refers to, in the second. An entry of the user's
    leads to albums and these lead to bands. -/
theorem prune_greatest_support_of_chain : ∃ q,
    readQuery ("WITH Band AS (SELECT 1), Orders AS (SELECT 1), Revenue AS (SELECT 1 FROM Orders), " ++
      "Album AS (SELECT 1 FROM Band), a AS (SELECT 1 FROM Album) SELECT 1") = .ok q ∧
    (∀ cte, ¬Relation.TransGen (ObjectDependsOn sampleLayer q) cte cte) ∧
    names (prune sampleLayer q) = ["Band", "Album", "a"] ∧
    (∀ cte ∈ q.ctes, sampleLayer.kind? (nameOf cte) ≠ none →
      (cte ∈ (prune sampleLayer q).ctes ↔ Reached sampleLayer q cte)) := by
  refine returns_one (p := fun q => (q.ctes.map fun cte => (nameOf cte, cte.query.relations)) =
      [("Band", []), ("Orders", []), ("Revenue", ["Orders"]), ("Album", ["Band"]), ("a", ["Album"])] ∧
    names (prune sampleLayer q) = ["Band", "Album", "a"]) (by decide +kernel) fun q _ facts => ?_
  obtain ⟨entries, left⟩ := facts
  have height : Acyclic q :=
    acyclic_of_height entries ["Band", "Orders", "Revenue", "Album", "a"].idxOf (by decide)
  have acyclic : ∀ cte, ¬Relation.TransGen (ObjectDependsOn sampleLayer q) cte cte :=
    fun cte circle => height cte (circle.lift id fun _ _ depends => depends.toDependsOn)
  obtain ⟨_, _, _, _, _, _, reached⟩ := prune_greatest_support sampleLayer q
  exact ⟨acyclic, left, reached acyclic⟩

end With

end SemanticLayer
