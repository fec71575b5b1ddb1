import Mathlib.Data.String.Basic
import SemanticLayer.Proofs.Findings

/-! # Sets that are kept in order

Putting a value into an ordered list keeps the order, and with it that no value is there twice: the search for the
place of a value stops as soon as a larger one is met.
-/

namespace SemanticLayer

open List

variable {α : Type} {le : α → α → Bool} {l : List α}

/-- A comparison that puts all values in one order. -/
structure LinearLe (le : α → α → Bool) : Prop where
  trans : ∀ {a b c}, le a b = true → le b c = true → le a c = true
  total : ∀ a b, le a b = true ∨ le b a = true
  antisymm : ∀ {a b}, le a b = true → le b a = true → a = b

/-- The values of a list ascend, so that no two are the same. -/
def Ascending (le : α → α → Bool) (l : List α) : Prop := l.Pairwise fun a b => le a b = true ∧ a ≠ b

theorem Ascending.nodup (ascending : Ascending le l) : l.Nodup :=
  ascending.imp And.right

theorem Ascending.eq_of_mem_iff (order : LinearLe le) {l' : List α}
    (first : Ascending le l) (second : Ascending le l') (same : ∀ a, a ∈ l ↔ a ∈ l') : l = l' := by
  have perm := (perm_ext_iff_of_nodup first.nodup second.nodup).mpr same
  exact perm.eq_of_pairwise (fun _ _ _ _ below above => order.antisymm below.1 above.1) first second

theorem insertOrdered_ascending [BEq α] [LawfulBEq α] (order : LinearLe le)
    (ascending : Ascending le l) (a : α) : Ascending le (insertOrdered le a l) := by
  induction l with
  | nil => exact pairwise_singleton _ _
  | cons b rest ih =>
    obtain ⟨least, others⟩ := pairwise_cons.mp ascending
    unfold insertOrdered
    split
    · exact ascending
    · rename_i different
      have different : a ≠ b := fun same => different (beq_iff_eq.mpr same)
      split
      · rename_i lower
        refine pairwise_cons.mpr ⟨fun x member => ?_, ascending⟩
        rcases mem_cons.mp member with rfl | later
        · exact ⟨lower, different⟩
        · obtain ⟨above, _⟩ := least x later
          refine ⟨order.trans lower above, fun same => different ?_⟩
          subst same
          exact order.antisymm lower above
      · rename_i higher
        refine pairwise_cons.mpr ⟨fun x member => ?_, ih others⟩
        rcases mem_insertOrdered.mp member with rfl | later
        · exact ⟨(order.total b x).resolve_right higher, different.symm⟩
        · exact least x later

theorem linear_names : LinearLe fun a b : String => decide (a ≤ b) where
  trans := by grind
  total := by grind
  antisymm := by grind

theorem TableName.le_iff {a b : TableName} : a.le b = true ↔ a.catalog < b.catalog ∨
    a.catalog = b.catalog ∧ (a.schema < b.schema ∨ a.schema = b.schema ∧ a.table ≤ b.table) := by
  unfold le
  grind

theorem TableName.linear_le : LinearLe TableName.le where
  trans := by
    simp only [le_iff]
    grind
  total := by
    simp only [le_iff]
    grind
  antisymm {a b} := by
    cases a
    cases b
    simp only [le_iff, TableName.mk.injEq]
    grind

theorem Analysis.linear_readLe : LinearLe readLe where
  trans {a b c} := by
    have trans := @TableName.linear_le.trans a.1 b.1 c.1
    have antisymm := @TableName.linear_le.antisymm a.1 b.1
    unfold readLe
    grind
  total a b := by
    have total := TableName.linear_le.total a.1 b.1
    unfold readLe
    grind
  antisymm {a b} := by
    have antisymm := @TableName.linear_le.antisymm a.1 b.1
    unfold readLe
    grind

theorem nodup_eraseDups [BEq α] [LawfulBEq α] (l : List α) : l.eraseDups.Nodup := by
  cases l with
  | nil => exact nodup_nil
  | cons a rest =>
    rw [eraseDups_cons]
    refine nodup_cons.mpr ⟨fun member => ?_, nodup_eraseDups _⟩
    have other := (mem_filter.mp (mem_eraseDups.mp member)).2
    simp at other
termination_by l.length
decreasing_by exact Nat.lt_succ_of_le (length_filter_le _ _)

end SemanticLayer
