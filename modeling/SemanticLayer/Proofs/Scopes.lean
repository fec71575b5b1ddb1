import Mathlib.Data.List.Forall2
import SemanticLayer.Proofs.Meanings

/-! # Scopes that grow

Joining a model adds fields to the frames of a scope. A name may come to mean a new field then, or may
become ambiguous, but among the old fields it means what it meant before.
-/

namespace SemanticLayer

open List

/-- A frame keeps its fields in their order and gets new ones. -/
structure Frame.Grows (new : Field → Prop) (frame frame' : Frame) : Prop where
  kept : frame.fields.Sublist frame'.fields
  added : ∀ f ∈ frame'.fields, f ∈ frame.fields ∨ new f

namespace Frame.Grows

variable {new : Field → Prop} {a b c : Frame}

theorem refl (new : Field → Prop) (a : Frame) : a.Grows new a := ⟨.refl _, fun _ => .inl⟩

theorem trans (first : a.Grows new b) (second : b.Grows new c) : a.Grows new c := by
  refine ⟨first.kept.trans second.kept, fun f member => ?_⟩
  rcases second.added f member with old | fresh
  · exact first.added f old
  · exact .inr fresh

end Frame.Grows

namespace Scope

variable {name rest : DottedName} {s : Scope} {f : Field} {heads : List (DottedName × DottedName)}

/-- Some field in scope answers to a name. -/
def Knows (s : Scope) (name : DottedName) : Prop :=
  ∃ frame ∈ s, ∃ f ∈ frame.fields, f.answersTo name = true

theorem knows_cons {frame : Frame} {outer : Scope} :
    Knows (frame :: outer) name ↔ (∃ f ∈ frame.fields, f.answersTo name = true) ∨ outer.Knows name := by
  simp only [Knows, mem_cons, exists_eq_or_imp]

theorem resolve_eq_none_iff : s.resolve name = .ok none ↔ ¬ s.Knows name := by
  induction s with
  | nil => simp [resolve, Knows]
  | cons frame outer ih =>
    rw [knows_cons, not_or, ← ih, resolve]
    split
    · rename_i empty
      have nowhere : ¬ ∃ f ∈ frame.fields, f.answersTo name = true := by
        rintro ⟨f, member, answers⟩
        exact filter_eq_nil_iff.mp empty f member answers
      exact (and_iff_right nowhere).symm
    · rename_i f single
      have found := mem_filter.mp (single ▸ mem_singleton_self f)
      exact ⟨nofun, fun nowhere => absurd ⟨f, found⟩ nowhere.1⟩
    · rename_i more _
      obtain ⟨f, rest, several⟩ := exists_cons_of_ne_nil more
      have found := mem_filter.mp (several ▸ mem_cons_self : f ∈ _)
      exact ⟨nofun, fun nowhere => absurd ⟨f, found⟩ nowhere.1⟩

theorem resolve_eq_some (meant : s.resolve name = .ok (some f)) :
    f.answersTo name = true ∧ ∃ frame ∈ s, f ∈ frame.fields := by
  induction s with
  | nil => cases meant
  | cons frame outer ih =>
    rw [resolve] at meant
    split at meant
    · obtain ⟨answers, frame', member, inFrame⟩ := ih meant
      exact ⟨answers, frame', mem_cons_of_mem _ member, inFrame⟩
    · rename_i single
      cases meant
      have found := mem_filter.mp (single ▸ mem_singleton_self f)
      exact ⟨found.2, frame, mem_cons_self, found.1⟩
    · cases meant

theorem mem_cuts {head : DottedName} (cut : (head, rest) ∈ cuts name) :
    head ++ rest = name ∧ head ≠ [] ∧ rest ≠ [] := by
  obtain ⟨i, inside, split⟩ := mem_map.mp cut
  cases split
  have := mem_range'_1.mp inside
  refine ⟨take_append_drop _ _, ?_, ?_⟩
  · intro empty
    have := congrArg length empty
    simp only [length_take, length_nil] at this
    omega
  · intro empty
    have := drop_eq_nil_iff.mp empty
    omega

/-- The first head that means a field is the first one that means anything. -/
theorem firstHead_eq_some_iff :
    s.firstHead heads = .ok (some (f, rest)) ↔ ∃ (i : Nat) (head : DottedName), heads[i]? = some (head, rest) ∧
      s.resolve head = .ok (some f) ∧ ∀ j < i, ∀ cut : DottedName × DottedName, heads[j]? = some cut →
        s.resolve cut.1 = .ok none := by
  induction heads with
  | nil => simp [firstHead]
  | cons first heads ih =>
    obtain ⟨head, behind⟩ := first
    constructor
    · intro found
      rw [firstHead] at found
      cases meaning : s.resolve head with
      | error e => rw [meaning] at found; cases found
      | ok field =>
        rw [meaning] at found
        cases field with
        | some g =>
          cases found
          exact ⟨0, head, rfl, meaning, fun j before => absurd before (Nat.not_lt_zero j)⟩
        | none =>
          obtain ⟨i, head', listed, meant, before⟩ := ih.mp found
          refine ⟨i + 1, head', listed, meant, fun j less cut here => ?_⟩
          cases j with
          | zero =>
            cases here
            exact meaning
          | succ j => exact before j (by omega) cut here
    · rintro ⟨i, head', listed, meant, before⟩
      rw [firstHead]
      cases i with
      | zero =>
        cases listed
        rw [meant]
        rfl
      | succ i =>
        rw [before 0 (by omega) _ rfl]
        exact ih.mpr ⟨i, head', listed, meant, fun j less => before (j + 1) (by omega)⟩

theorem firstHead_eq_some (found : s.firstHead heads = .ok (some (f, rest))) :
    ∃ head, (head, rest) ∈ heads ∧ s.resolve head = .ok (some f) := by
  obtain ⟨i, head, listed, meant, _⟩ := firstHead_eq_some_iff.mp found
  exact ⟨head, mem_of_getElem? listed, meant⟩

/-- How a name goes through a relationship: it means no field, and one of its heads means the relationship. -/
theorem reference_eq_through : s.reference name = .ok (.through f rest) ↔
      ¬ s.Knows name ∧ s.firstHead (cuts name) = .ok (some (f, rest)) ∧ f.isRelationship = true := by
  rw [← resolve_eq_none_iff, reference]
  cases meaning : s.resolve name with
  | error e => simp [bind, Except.bind]
  | ok field =>
    cases field with
    | some g => simp [bind, Except.bind, pure, Except.pure]
    | none =>
      cases found : s.firstHead (cuts name) with
      | error e => simp [bind, Except.bind]
      | ok pair =>
        rcases pair with _ | ⟨g, behind⟩
        · simp [bind, Except.bind, pure, Except.pure]
        · cases relationship : g.isRelationship <;> simp [bind, Except.bind, pure, Except.pure] <;> grind

/-- The relationship that a name goes through is in scope and answers to what stands before the last parts. -/
theorem relationship_of_through (goes : s.reference name = .ok (.through f rest)) :
    f.isRelationship = true ∧ (∃ frame ∈ s, f ∈ frame.fields) ∧
      ∃ head, f.answersTo head = true ∧ head ++ rest = name ∧ head ≠ [] ∧ rest ≠ [] := by
  obtain ⟨_, found, relationship⟩ := reference_eq_through.mp goes
  obtain ⟨head, cut, meaning⟩ := firstHead_eq_some found
  obtain ⟨answers, inScope⟩ := resolve_eq_some meaning
  exact ⟨relationship, inScope, head, answers, mem_cuts cut⟩

/-- A scope grows frame by frame. -/
abbrev Grows (new : Field → Prop) : Scope → Scope → Prop := Forall₂ (Frame.Grows new)

namespace Grows

variable {new : Field → Prop} {s s' s'' : Scope} {name : DottedName}

theorem refl (new : Field → Prop) (s : Scope) : s.Grows new s := forall₂_same.mpr fun frame _ => .refl new frame

theorem trans (first : s.Grows new s') (second : s'.Grows new s'') : s.Grows new s'' := by
  induction first generalizing s'' with
  | nil =>
    cases second
    exact .nil
  | cons here _ ih =>
    cases second with
    | cons here' rest' => exact .cons (here.trans here') (ih rest')

theorem knows (grows : s.Grows new s') (known : s.Knows name) : s'.Knows name := by
  induction grows with
  | nil => exact known
  | cons here _ ih =>
    rcases knows_cons.mp known with ⟨f, member, answers⟩ | further
    · exact knows_cons.mpr (.inl ⟨f, here.kept.subset member, answers⟩)
    · exact knows_cons.mpr (.inr (ih further))

theorem resolve (grows : s.Grows new s') (meant : s'.resolve name = .ok (some f)) (old : ¬ new f) :
    s.resolve name = .ok (some f) := by
  induction grows with
  | nil => cases meant
  | @cons frame frame' outer outer' here _ ih =>
    have fewer := here.kept.filter (·.answersTo name)
    rw [Scope.resolve] at meant ⊢
    split at meant
    · rename_i empty
      rw [empty] at fewer
      rw [sublist_nil.mp fewer]
      exact ih meant
    · rename_i single
      cases meant
      have found := mem_filter.mp (single ▸ mem_singleton_self f)
      have before : f ∈ frame.fields := (here.added f found.1).resolve_right old
      rw [single] at fewer
      rcases sublist_singleton.mp fewer with none | same
      · exact absurd (mem_filter.mpr ⟨before, found.2⟩) (none ▸ not_mem_nil)
      · rw [same]
    · cases meant

theorem firstHead (grows : s.Grows new s') (found : s'.firstHead heads = .ok (some (f, rest))) (old : ¬ new f) :
    s.firstHead heads = .ok (some (f, rest)) := by
  obtain ⟨i, head, listed, meant, before⟩ := firstHead_eq_some_iff.mp found
  refine firstHead_eq_some_iff.mpr ⟨i, head, listed, grows.resolve meant old, fun j less cut here => ?_⟩
  exact resolve_eq_none_iff.mpr fun known => resolve_eq_none_iff.mp (before j less cut here) (grows.knows known)

theorem reference (grows : s.Grows new s') (goes : s'.reference name = .ok (.through f rest)) (old : ¬ new f) :
    s.reference name = .ok (.through f rest) := by
  obtain ⟨unknown, found, relationship⟩ := reference_eq_through.mp goes
  refine reference_eq_through.mpr ⟨fun known => unknown (grows.knows known), ?_, relationship⟩
  exact grows.firstHead found old

end Grows

end Scope

end SemanticLayer
