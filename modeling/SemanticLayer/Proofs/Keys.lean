import Mathlib.Data.List.Nodup
import SemanticLayer.Proofs.Findings
import SemanticLayer.Simulation.Client

/-! # Maps and lists of full names -/

namespace SemanticLayer

open List

section Lists

variable {α β : Type} [BEq β] [LawfulBEq β] (key : α → β) {l : List α} {name : β} {x : α} {pairs : List (β × α)}

theorem mem_and_key_of_find? (found : l.find? (fun a => key a == name) = some x) : x ∈ l ∧ key x = name :=
  ⟨mem_of_find?_eq_some found, by simpa using find?_some found⟩

theorem find?_eq_some_of_unique (unique : ∀ a ∈ l, key a = key x → a = x) (member : x ∈ l) :
    l.find? (fun a => key a == key x) = some x := by
  cases found : l.find? fun a => key a == key x with
  | none => exact absurd (find?_eq_none.mp found x member) (by simp)
  | some a =>
    obtain ⟨listed, same⟩ := mem_and_key_of_find? key found
    rw [unique a listed same]

theorem find?_eq_some_iff (distinct : (l.map key).Nodup) :
    l.find? (fun a => key a == name) = some x ↔ x ∈ l ∧ key x = name := by
  refine ⟨mem_and_key_of_find? key, ?_⟩
  rintro ⟨member, rfl⟩
  exact find?_eq_some_of_unique key (fun a listed same => inj_on_of_nodup_map distinct listed member same) member

theorem mem_of_find?_map (found : (pairs.find? (·.1 == name)).map (·.2) = some x) : (name, x) ∈ pairs := by
  obtain ⟨pair, first, rfl⟩ := Option.map_eq_some_iff.mp found
  obtain ⟨member, rfl⟩ := mem_and_key_of_find? Prod.fst first
  exact member

theorem find?_map_of_mem (distinct : (pairs.map Prod.fst).Nodup) (member : (name, x) ∈ pairs) :
    (pairs.find? (·.1 == name)).map (·.2) = some x := by
  rw [(find?_eq_some_iff Prod.fst distinct).mpr ⟨member, rfl⟩]
  rfl

end Lists

namespace KeyMap

variable {α : Type} {m : KeyMap α} {key other : TableName} {value : α}

@[simp] theorem get?_nil : get? ([] : KeyMap α) key = none := rfl

theorem get?_erase : (m.erase key).get? other = if other = key then none else m.get? other := by
  unfold get? erase
  rw [find?_filter]
  split
  · rename_i same
    simp [same]
  · rename_i different
    congr 2
    funext entry
    by_cases found : entry.1 = other <;> simp [found, different]

@[simp] theorem get?_erase_self : (m.erase key).get? key = none := by
  rw [get?_erase, if_pos rfl]

theorem erase_of_none (absent : m.get? key = none) : m.erase key = m := by
  refine filter_eq_self.mpr fun entry member => ?_
  have different := find?_eq_none.mp (Option.map_eq_none_iff.mp absent) entry member
  simpa using different

theorem get?_set : (m.set key value).get? other = if other = key then some value else m.get? other := by
  unfold set
  by_cases same : other = key
  · simp [get?, same]
  · have skipped : get? ((key, value) :: m.erase key) other = (m.erase key).get? other := by
      simp [get?, Ne.symm same]
    rw [skipped, get?_erase, if_neg same, if_neg same]

@[simp] theorem get?_set_self : (m.set key value).get? key = some value := by
  rw [get?_set, if_pos rfl]

theorem mem_keys : key ∈ m.keys ↔ (m.get? key).isSome = true := by
  simp [keys, get?]

end KeyMap

section Ordered

variable {keys : List TableName} {key : TableName}

theorem mem_orderedKeys : key ∈ Simulation.orderedKeys keys ↔ key ∈ keys := by
  induction keys with
  | nil => rfl
  | cons first keys ih =>
    change key ∈ insertOrdered TableName.le first (Simulation.orderedKeys keys) ↔ _
    rw [mem_insertOrdered, mem_cons, ih]

theorem insertOrdered_perm {α : Type} [BEq α] [LawfulBEq α] {le : α → α → Bool} {a : α} {l : List α}
    (fresh : a ∉ l) : (insertOrdered le a l).Perm (a :: l) := by
  induction l with
  | nil => exact .refl _
  | cons b l ih =>
    rw [mem_cons, not_or] at fresh
    unfold insertOrdered
    rw [if_neg (by simpa using fresh.1)]
    split
    · exact .refl _
    · exact ((ih fresh.2).cons b).trans (.swap a b l)

theorem orderedKeys_perm (distinct : keys.Nodup) : (Simulation.orderedKeys keys).Perm keys := by
  induction keys with
  | nil => exact .refl _
  | cons first keys ih =>
    obtain ⟨fresh, distinct⟩ := nodup_cons.mp distinct
    exact (insertOrdered_perm (mem_orderedKeys.not.mpr fresh)).trans ((ih distinct).cons first)

end Ordered

theorem Manifest.nodup_of_repeated? {seen names : List String}
    (unique : Manifest.repeated? seen names = none) : names.Nodup ∧ ∀ name ∈ names, name ∉ seen := by
  induction names generalizing seen with
  | nil => exact ⟨.nil, fun _ member => nomatch member⟩
  | cons name names ih =>
    unfold Manifest.repeated? at unique
    split at unique
    · cases unique
    · rename_i fresh
      obtain ⟨distinct, others⟩ := ih unique
      refine ⟨.cons (fun member => others name member mem_cons_self) distinct, ?_⟩
      intro other member
      rcases mem_cons.mp member with rfl | later
      · simpa using fresh
      · exact fun old => others other later (mem_cons_of_mem _ old)

def Manifest.namesOf (m : Manifest) : ObjectKind → List String
  | .model => m.models.map Model.name
  | .metric => m.metrics.map Metric.name
  | .cumulativeMetric => m.cumulativeMetrics.map CumulativeMetric.name
  | .view => m.views.map View.name

theorem find?_isSome_iff {α : Type} {f : α → String} {l : List α} {name : String} :
    (l.find? fun a => f a == name).isSome = true ↔ name ∈ l.map f := by
  rw [find?_isSome, mem_map]
  simp only [beq_iff_eq]

namespace Layer

variable {l : Layer} {key : TableName}

theorem checks (l : Layer) : Manifest.repeated? [] l.manifest.objectNames = none ∧
    (∀ m ∈ l.manifest.models, l.manifest.checkModel m = .ok ()) ∧
    ∀ r ∈ l.manifest.relationships, l.manifest.checkRelationship r = .ok () := by
  have checked := l.checked
  unfold Manifest.check at checked
  cases unique : Manifest.repeated? [] l.manifest.objectNames with
  | none =>
    rw [unique] at checked
    obtain ⟨_, models, relationships⟩ := bind_eq_ok_iff.mp checked
    exact ⟨rfl, forM_eq_ok_iff.mp models, forM_eq_ok_iff.mp relationships⟩
  | some name =>
    rw [unique] at checked
    cases checked

theorem objectNames_nodup (l : Layer) : l.manifest.objectNames.Nodup := (Manifest.nodup_of_repeated? l.checks.1).1

/-- A name is that of objects of one kind only, since no two objects share a name. -/
theorem kind?_eq_some_iff {name : String} {kind : ObjectKind} :
    l.kind? name = some kind ↔ name ∈ l.manifest.namesOf kind := by
  have models : (l.model? name).isSome = true ↔ _ := find?_isSome_iff
  have metrics : (l.metric? name).isSome = true ↔ _ := find?_isSome_iff
  have cumulative : (l.cumulativeMetric? name).isSome = true ↔ _ := find?_isSome_iff
  have views : (l.view? name).isSome = true ↔ _ := find?_isSome_iff
  have distinct := l.objectNames_nodup
  simp only [Manifest.objectNames, nodup_append, mem_append] at distinct
  unfold kind?
  cases kind <;> grind [Manifest.namesOf]

theorem preAggregated_nodup (l : Layer) : l.preAggregated.Nodup := by
  refine Nodup.map (fun a b same => congrArg TableName.table same) (l.objectNames_nodup.sublist ?_)
  exact (((filter_sublist.map _).append (filter_sublist.map _)).append
    (filter_sublist.map _)).trans (sublist_append_left _ _)

theorem isCacheable_of_preAggregated (wanted : key ∈ l.preAggregated) : l.isCacheable key = true := by
  obtain ⟨name, member, rfl⟩ := mem_map.mp wanted
  have found : (l.model? name).isSome = true ∨ (l.metric? name).isSome = true ∨
      (l.cumulativeMetric? name).isSome = true := by
    simp only [mem_append, mem_map, mem_filter] at member
    rcases member with (⟨m, ⟨here, _⟩, rfl⟩ | ⟨m, ⟨here, _⟩, rfl⟩) | ⟨m, ⟨here, _⟩, rfl⟩
    · exact .inl (find?_isSome.mpr ⟨m, here, beq_self_eq_true _⟩)
    · exact .inr (.inl (find?_isSome.mpr ⟨m, here, beq_self_eq_true _⟩))
    · exact .inr (.inr (find?_isSome.mpr ⟨m, here, beq_self_eq_true _⟩))
  have owned : l.owns (l.qualified name) = true := by
    simp [owns, qualified]
  have named : (l.qualified name).table = name := rfl
  clear wanted member
  unfold isCacheable kind?
  rw [owned, named, Bool.true_and]
  grind

end Layer

end SemanticLayer
