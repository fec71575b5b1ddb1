import SemanticLayer.Proofs.Success

/-! # Looking names up

A name is looked up as a whole, then by its heads from the shortest one on. Only a lookup by a single word can be
ambiguous if the relations of every FROM clause have different names. So a name stays clear in a larger scope if
its words are not the names of new fields, or if it says its relation and means a field already.
-/

namespace SemanticLayer

open Sql List

namespace DottedName

/-- The words that a name is looked up by: the last one of each head, or the only one of a bare name. -/
def leads (name : DottedName) : List String := if name.length ≤ 1 then [name.suffix] else name.dropLast

theorem suffix_mem {name : DottedName} (nonempty : name ≠ []) : name.suffix ∈ name := by
  rw [suffix, getLast?_eq_some_getLast nonempty]
  exact getLast_mem nonempty

theorem suffix_take_mem_leads (name : DottedName) : suffix (name.take 1) ∈ name.leads := by
  match name with
  | [] | [_] => simp [leads]
  | first :: second :: rest => simp [leads, suffix]

theorem suffix_mem_leads_of_cut {name head rest : DottedName} (cut : (head, rest) ∈ Scope.cuts name) :
    head.suffix ∈ name.leads := by
  obtain ⟨split, nonempty, more⟩ := Scope.mem_cuts cut
  have long : ¬ name.length ≤ 1 := by
    have total := congrArg length split
    have first := length_pos_iff.mpr nonempty
    have second := length_pos_iff.mpr more
    rw [length_append] at total
    omega
  rw [leads, if_neg long, ← split, dropLast_append_of_ne_nil more]
  exact mem_append_left _ (suffix_mem nonempty)

end DottedName

namespace Field

variable {f : Field} {name : DottedName}

theorem name_of_answersTo (answers : f.answersTo name = true) : f.name = name.suffix := by
  simp only [answersTo, Bool.and_eq_true, beq_iff_eq] at answers
  exact answers.1.symm

theorem qualifier_of_answersTo (dotted : 2 ≤ name.length) (answers : f.answersTo name = true) :
    f.qualifier = DottedName.suffix name.dropLast := by
  have several : name.length > 1 := dotted
  simp only [answersTo, DottedName.qualifier?, if_pos several, Bool.and_eq_true, isSuffixOf_iff_suffix] at answers
  obtain ⟨front, split⟩ := answers.2
  have nonempty : name.dropLast ≠ [] := by
    intro empty
    have short := congrArg length empty
    rw [length_dropLast, length_nil] at short
    omega
  rw [qualifier, DottedName.suffix, ← split, List.getLast?_append_of_ne_nil _ nonempty, DottedName.suffix]

end Field

/-- No two fields have the same name and a relation of the same name. -/
def DistinctFields (fields : List Field) : Prop :=
  fields.Pairwise fun f g => f.qualifier = g.qualifier → f.name ≠ g.name

instance (fields : List Field) : Decidable (DistinctFields fields) :=
  inferInstanceAs (Decidable (Pairwise _ _))

theorem DistinctFields.filter_answersTo {fields : List Field} (distinct : DistinctFields fields) {name : DottedName}
    (dotted : 2 ≤ name.length) : (fields.filter (·.answersTo name)).length ≤ 1 := by
  have apart := distinct.filter (·.answersTo name)
  have answers : ∀ f ∈ fields.filter (·.answersTo name), f.answersTo name = true :=
    fun f member => (mem_filter.mp member).2
  match found : fields.filter (·.answersTo name) with
  | [] | [_] => simp [found]
  | f :: g :: rest =>
    rw [found] at apart answers
    have first := answers f mem_cons_self
    have second := answers g (mem_cons_of_mem _ mem_cons_self)
    refine absurd ?_ ((pairwise_cons.mp apart).1 g mem_cons_self ?_)
    · rw [Field.name_of_answersTo first, Field.name_of_answersTo second]
    · rw [Field.qualifier_of_answersTo dotted first, Field.qualifier_of_answersTo dotted second]

namespace Scope

variable {s s' : Scope} {name : DottedName}

/-- The relations of every frame have different names. -/
def Distinct (s : Scope) : Prop := ∀ frame ∈ s, DistinctFields frame.fields

theorem Distinct.nil : Distinct [] := forall_mem_nil _

theorem Distinct.cons {frame : Frame} (first : DistinctFields frame.fields) (rest : s.Distinct) :
    Distinct (frame :: s) :=
  forall_mem_cons.mpr ⟨first, rest⟩

/-- A name can be looked up: it does not mean several fields. -/
def Resolves (s : Scope) (name : DottedName) : Prop := ∃ found, s.resolve name = .ok found

instance (s : Scope) (name : DottedName) : Decidable (s.Resolves name) :=
  inferInstanceAs (Decidable (∃ found, s.resolve name = .ok found))

theorem resolves_of_several_parts (distinct : s.Distinct) (dotted : 2 ≤ name.length) : s.Resolves name := by
  induction s with
  | nil => exact ⟨none, rfl⟩
  | cons frame outer ih =>
    obtain ⟨here, rest⟩ := forall_mem_cons.mp distinct
    have few := here.filter_answersTo dotted
    unfold Resolves
    rw [resolve]
    split
    · exact ih rest
    · exact ⟨_, rfl⟩
    · rename_i more several
      cases found : frame.fields.filter (·.answersTo name) with
      | nil => exact absurd found more
      | cons f others =>
        cases others with
        | nil => exact absurd found (several f)
        | cons g others =>
          rw [found] at few
          simp at few

theorem firstHead_ok {heads : List (DottedName × DottedName)} (resolves : ∀ cut ∈ heads, s.Resolves cut.1) :
    ∃ found, s.firstHead heads = .ok found := by
  induction heads with
  | nil => exact ⟨none, rfl⟩
  | cons cut heads ih =>
    obtain ⟨⟨found, meaning⟩, others⟩ := forall_mem_cons.mp resolves
    rw [firstHead, meaning]
    cases found with
    | none => exact ih others
    | some f => exact ⟨_, rfl⟩

/-- Among distinct relations it is enough that the first word can be looked up. -/
theorem Distinct.clear (distinct : s.Distinct) (first : s.Resolves (name.take 1)) : s.Clear name := by
  have resolves : ∀ part : DottedName, part <+: name → part ≠ [] → s.Resolves part := by
    intro part front nonempty
    by_cases dotted : 2 ≤ part.length
    · exact resolves_of_several_parts distinct dotted
    · have single : part.length = 1 := by
        have := length_pos_iff.mpr nonempty
        omega
      rwa [prefix_iff_eq_take.mp front, single]
  have whole : s.Resolves name := by
    by_cases empty : name = []
    · rwa [empty] at first ⊢
    · exact resolves name (prefix_refl name) empty
  obtain ⟨found, meaning⟩ := whole
  obtain ⟨head, goes⟩ : ∃ head, s.firstHead (cuts name) = .ok head := by
    refine firstHead_ok fun cut member => ?_
    obtain ⟨split, nonempty, _⟩ := mem_cuts member
    exact resolves cut.1 ⟨cut.2, split⟩ nonempty
  unfold Clear
  rw [reference, meaning]
  cases found with
  | some f => exact ⟨_, rfl⟩
  | none =>
    change ∃ r, (s.firstHead (cuts name) >>= _) = _
    rw [goes]
    cases head <;> exact ⟨_, rfl⟩

theorem reference_known (distinct : s.Distinct) (dotted : 2 ≤ name.length) (known : s.Knows name) :
    ∃ f, s.reference name = .ok (.field f) := by
  obtain ⟨found, meaning⟩ := resolves_of_several_parts distinct dotted
  cases found with
  | none => exact absurd known (resolve_eq_none_iff.mp meaning)
  | some f =>
    rw [reference, meaning]
    exact ⟨f, rfl⟩

/-- A field that a name means in the innermost frames is what it means. -/
theorem resolve_append {f : Field} (meaning : s.resolve name = .ok (some f)) (outer : Scope) :
    (s ++ outer).resolve name = .ok (some f) := by
  induction s with
  | nil => cases meaning
  | cons frame s ih =>
    rw [resolve] at meaning
    rw [cons_append, resolve]
    split
    · rename_i none
      rw [none] at meaning
      exact ih meaning
    · rename_i single
      rw [single] at meaning
      exact meaning
    · rename_i more several
      split at meaning
      · rename_i none
        exact absurd none more
      · rename_i g single
        exact absurd single (several g)
      · cases meaning

theorem resolve_cons_of_known {frame : Frame} (known : resolve name [frame] ≠ .ok none) (outer : Scope) :
    resolve name (frame :: outer) = resolve name [frame] := by
  cases found : frame.fields.filter (·.answersTo name) with
  | nil => exact absurd (by simp [resolve, found]) known
  | cons f rest => cases rest <;> simp [resolve, found]

theorem resolve_cons_of_unknown {frame : Frame} (unknown : resolve name [frame] = .ok none) (outer : Scope) :
    resolve name (frame :: outer) = resolve name outer := by
  cases found : frame.fields.filter (·.answersTo name) with
  | nil => simp [resolve, found]
  | cons f rest => cases rest <;> simp [resolve, found] at unknown

end Scope

/-- A frame gets new fields between its old ones, if it has any. -/
structure Frame.Swells (new : Field → Prop) (frame frame' : Frame) : Prop where
  kept : frame.fields.Sublist frame'.fields
  added : ∃ extra, frame'.fields.Perm (frame.fields ++ extra) ∧ ∀ f ∈ extra, new f
  blank : frame.fields = [] → frame' = frame

namespace Frame.Swells

variable {new : Field → Prop} {frame frame' : Frame}

theorem refl (new : Field → Prop) (frame : Frame) : frame.Swells new frame :=
  ⟨.refl _, ⟨[], by simp, forall_mem_nil _⟩, fun _ => rfl⟩

theorem grows (swells : frame.Swells new frame') : frame.Grows new frame' := by
  obtain ⟨extra, perm, fresh⟩ := swells.added
  refine ⟨swells.kept, fun f member => ?_⟩
  exact (mem_append.mp (perm.mem_iff.mp member)).imp_right (fresh f)

theorem filter_eq (swells : frame.Swells new frame') {p : Field → Bool} (apart : ∀ f, new f → p f = false) :
    frame'.fields.filter p = frame.fields.filter p := by
  obtain ⟨extra, perm, fresh⟩ := swells.added
  have none : extra.filter p = [] := filter_eq_nil_iff.mpr fun f member => by simp [apart f (fresh f member)]
  have same := (perm.filter p).length_eq
  rw [filter_append, none, append_nil] at same
  exact ((swells.kept.filter p).eq_of_length same.symm).symm

end Frame.Swells

namespace Scope

/-- A scope grows frame by frame. Frames without fields stay as they are. -/
abbrev Swells (new : Field → Prop) : Scope → Scope → Prop := Forall₂ (Frame.Swells new)

namespace Swells

variable {new : Field → Prop} {s s' : Scope} {name : DottedName}

theorem refl (new : Field → Prop) (s : Scope) : s.Swells new s := forall₂_same.mpr fun frame _ => .refl new frame

theorem grows (swells : s.Swells new s') : s.Grows new s' := swells.imp fun _ _ => Frame.Swells.grows

theorem eq_of_blank (swells : s.Swells new s') (blank : s.Blank) : s' = s := by
  induction swells with
  | nil => rfl
  | cons here _ ih =>
    obtain ⟨empty, rest⟩ := forall_mem_cons.mp blank
    rw [here.blank empty, ih rest]

theorem resolve_eq (swells : s.Swells new s') (apart : ∀ f, new f → f.answersTo name = false) :
    s'.resolve name = s.resolve name := by
  induction swells with
  | nil => rfl
  | cons here _ ih => rw [resolve, resolve, here.filter_eq apart, ih]

end Swells

end Scope

end SemanticLayer
