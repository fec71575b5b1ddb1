import SemanticLayer.Proofs.Entries

/-! # Entries that are read

Dropping entries goes on until every entry of an object that is left is read by the query or by another entry.
Nothing more is dropped: entries that support each other in this sense are all kept.
-/

namespace SemanticLayer

open List

open Sql (Query)

namespace With

variable {l : Layer} {q kept : Query}

/-- Every entry of an object is read, by the query or by another entry. -/
def Supported (l : Layer) (q : Query) : Prop :=
  ∀ cte ∈ q.ctes, l.kind? (nameOf cte) ≠ none → nameOf cte ∈ mentioned q

theorem prune_filter (l : Layer) (q : Query) :
    (prune l q).ctes = q.ctes.filter fun cte => has (prune l q) (nameOf cte) := by
  have upTo : ∀ n q, ∃ keep : String → Bool, (pruneUpTo l n q).ctes = q.ctes.filter fun cte => keep (nameOf cte) := by
    intro n
    induction n with
    | zero => exact fun q => ⟨fun _ => true, by simp [pruneUpTo]⟩
    | succ n ih =>
      intro q
      let once : String → Bool := fun name => (l.kind? name).isNone || (mentioned q).contains name
      rw [pruneUpTo]
      split
      · exact ⟨once, rfl⟩
      · split
        · exact ⟨once, rfl⟩
        · obtain ⟨keep, same⟩ := ih (pruneOnce l q)
          refine ⟨fun name => keep name && once name, ?_⟩
          rw [same]
          exact filter_filter
  obtain ⟨keep, kept⟩ := upTo (q.ctes.length + 1) q
  have there : ∀ cte ∈ q.ctes, has (prune l q) (nameOf cte) = keep (nameOf cte) := by
    intro cte member
    rw [Bool.eq_iff_iff, has_iff, prune, names, kept]
    constructor
    · intro present
      obtain ⟨other, found, same⟩ := mem_map.mp present
      exact same ▸ (mem_filter.mp found).2
    · exact fun keeps => mem_map_of_mem (mem_filter.mpr ⟨member, keeps⟩)
  exact kept.trans (filter_congr fun cte member => (there cte member).symm)

theorem prune_recursive (l : Layer) (q : Query) (some : (prune l q).ctes ≠ []) :
    (prune l q).recursive = q.recursive := by
  have upTo : ∀ n q, (pruneUpTo l n q).ctes ≠ [] → (pruneUpTo l n q).recursive = q.recursive := by
    intro n
    induction n with
    | zero => exact fun _ _ => rfl
    | succ n ih =>
      intro q
      rw [pruneUpTo]
      split
      · rename_i empty
        exact fun some => absurd (isEmpty_iff.mp empty) some
      · split
        · exact fun _ => rfl
        · exact ih (pruneOnce l q)
  exact upTo _ q some

theorem supported_of_length (same : (pruneOnce l q).ctes.length = q.ctes.length) : Supported l (pruneOnce l q) := by
  have unchanged : (pruneOnce l q).ctes = q.ctes := filter_sublist.eq_of_length same
  have read : mentioned (pruneOnce l q) = mentioned q := by
    unfold mentioned
    rw [unchanged]
    rfl
  intro cte member object
  obtain ⟨_, reason⟩ := mem_filter.mp member
  rw [read]
  simpa [object] using reason

/-- There are as many rounds as it takes: each but the last one drops an entry. -/
theorem prune_supported (l : Layer) (q : Query) : Supported l (prune l q) := by
  have upTo : ∀ n q, q.ctes.length < n → Supported l (pruneUpTo l n q) := by
    intro n
    induction n with
    | zero => exact fun q low => absurd low (Nat.not_lt_zero _)
    | succ n ih =>
      intro q low
      have fewer : (pruneOnce l q).ctes.length ≤ q.ctes.length := length_filter_le _ _
      rw [pruneUpTo]
      split
      · rename_i empty
        intro cte member
        rw [isEmpty_iff.mp empty] at member
        cases member
      · split
        · rename_i same
          exact supported_of_length (beq_iff_eq.mp same)
        · rename_i dropped
          have dropped : (pruneOnce l q).ctes.length ≠ q.ctes.length := fun same => dropped (beq_iff_eq.mpr same)
          exact ih (pruneOnce l q) (by omega)
  exact upTo _ q (Nat.lt_succ_self _)

theorem pruneOnce_greatest (rest : SameBody q kept) (fewer : kept.ctes.Sublist q.ctes)
    (supported : Supported l kept) : kept.ctes.Sublist (pruneOnce l q).ctes := by
  have stays : kept.ctes.filter (fun cte => (l.kind? (nameOf cte)).isNone || (mentioned q).contains (nameOf cte)) =
      kept.ctes := by
    refine filter_eq_self.mpr fun cte member => ?_
    by_cases object : l.kind? (nameOf cte) = none
    · simp [object]
    · simp [mentioned_subset rest fewer (supported cte member object)]
  rw [← stays]
  exact fewer.filter _

/-- Entries that are read as long as they are all there, all stay. -/
theorem prune_greatest (rest : SameBody q kept) (fewer : kept.ctes.Sublist q.ctes) (supported : Supported l kept) :
    kept.ctes.Sublist (prune l q).ctes := by
  have upTo : ∀ n q, SameBody q kept → kept.ctes.Sublist q.ctes → kept.ctes.Sublist (pruneUpTo l n q).ctes := by
    intro n
    induction n with
    | zero => exact fun _ _ fewer => fewer
    | succ n ih =>
      intro q rest fewer
      have once := pruneOnce_greatest rest fewer supported
      rw [pruneUpTo]
      split
      · exact once
      · split
        · exact once
        · exact ih (pruneOnce l q) ⟨rest.body, rest.orderBy, rest.limit, rest.trailer⟩ once
  exact upTo _ q rest fewer

end With

end SemanticLayer
