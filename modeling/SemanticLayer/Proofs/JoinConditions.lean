import Mathlib.Algebra.Order.BigOperators.Group.List
import SemanticLayer.Proofs.Declarations
import SemanticLayer.Proofs.Depth
import SemanticLayer.Proofs.KeyExpansion
import SemanticLayer.Proofs.Recasting

/-! # Declared relationships can be joined

A relationship column that passes the checks of the manifest has a join, unless it leads to its own model. In the
condition of the join the names of two parts are written with the owner or with the joined model. Longer names pass
the checks too, but stay as they are. Main statement: `relationships_join`.
-/

namespace SemanticLayer

open Sql List

namespace Layer

variable {l : Layer} {m : Model} {col : Column} {name : String}

/-- The relationship of a column is one of its model and of the model that the column leads to. -/
theorem column_sound (model : m ∈ l.manifest.models) (column : col ∈ m.columns) (related : col.relationship = some name) :
    ∃ r, l.relationship? name = some r ∧ m.name ∈ r.models ∧ col.typeName ∈ r.models := by
  have columns : m.columns.forM (l.manifest.checkColumn m) = .ok () := by
    have sound := l.checks.2.1 m model
    unfold Manifest.checkModel at sound
    dsimp only at sound
    repeat' split at sound
    all_goals first | cases sound | exact sound
  have sound := forM_eq_ok_iff.mp columns col column
  unfold Manifest.checkColumn at sound
  rw [related] at sound
  dsimp only at sound
  split at sound
  · cases sound
  split at sound
  · cases sound
  split at sound
  · cases sound
  split at sound
  · cases sound
  · rename_i r found both
    simp only [Bool.or_eq_true, Bool.not_eq_true', not_or, Bool.not_eq_false, contains_iff_mem] at both
    exact ⟨r, found, both.1, both.2⟩

end Layer

@[simp] theorem qualifiersOf_pair (qualifier column : Ident) (names : List Path) :
    qualifiersOf ([qualifier, column] :: names) = qualifier.value :: qualifiersOf names := rfl

theorem qualifiersOf_bare {name : Path} (bare : name.length < 2) (names : List Path) :
    qualifiersOf (name :: names) = qualifiersOf names := by
  rcases name with _ | ⟨_, _ | _⟩
  · rfl
  · rfl
  · simp only [length_cons] at bare
    omega

section Requalify

variable {R : Path → Path → Prop}

/-- Two runs that have recorded related names. -/
def recorded (R : Path → Path → Prop) : Coupling (StateM (List Path)) where
  rel x y b := ∀ s s', Forall₂ R s s' → (y.run s').1 = b ∧ Forall₂ R (x.run s).2 (y.run s').2
  pure _ _ related := ⟨rfl, related⟩
  bind {_ _ x y f g b b'} first rest s s' related := by
    obtain ⟨rfl, related⟩ := first s s' related
    exact rest (x.run s).1 _ _ related

theorem recordNames_keeps (bare : ∀ name : Ident, R [name] [name]) {sub : Query → Query → Prop}
    {nested : Query → StateM (List Path) Query}
    (visits : ∀ {q q'}, sub q q' → (recorded R).rel (nested q) (nested q') q') :
    (recorded R).Keeps ⟨R, Eq, sub⟩ (recordNames.walk nested) where
  ident name _ _ related := ⟨rfl, rel_append related (.cons (bare name) .nil)⟩
  path here _ _ related := ⟨rfl, rel_append related (.cons here .nil)⟩
  call same := same.symm ▸ rfl
  query := visits

theorem RelatedJoin.requalify_names (model target owner label : String) (e : Expr Query) :
    Forall₂ (fun name name' => requalifyPath model target owner label name = .path name') e.deepNames
      (requalify model target owner label e).deepNames := by
  let edit : Edit Id := { Edit.keep Id with path := requalifyPath model target owner label }
  let R name name' := requalifyPath model target owner label name = .path name'
  let e' := requalify model target owner label e
  -- All edits go as deep as the deepest query in the two conditions.
  let n := ((e.queries ++ e'.queries).map Query.height).sum
  have deep : ∀ x ∈ e.queries ++ e'.queries, x.height ≤ n := fun x member =>
    le_sum_of_mem (mem_map_of_mem member)
  obtain ⟨deep, deep'⟩ := forall_mem_append.mp deep
  have recast : e.Recast ⟨R, Eq, Query.RecastAt R Eq n⟩ e' := by
    have same : e' = e.walk (edit.walk (Query.editAt edit n)) :=
      Expr.walk_congr (w := edit.walk pure) e fun x member => (Query.editAt_eq_edit edit n x (deep x member)).symm
    rw [same]
    have dotted : ∀ name, ∃ name', edit.path name = .path name' ∧ R name name' := by
      intro name
      have changed : ∃ name', requalifyPath model target owner label name = .path name' := by
        unfold requalifyPath
        split
        · split
          · exact ⟨_, rfl⟩
          · split <;> exact ⟨_, rfl⟩
        · exact ⟨_, rfl⟩
      obtain ⟨name', same⟩ := changed
      exact ⟨name', same, same⟩
    have recasts {sub : Query → Query → Prop} {nested : Query → Id Query} (visits : ∀ q, sub q (nested q)) :
        (edit.walk nested).Recasts ⟨R, Eq, sub⟩ :=
      ⟨fun _ => rfl, dotted, fun _ => rfl, visits⟩
    exact e.walk_recast (recasts (Query.editAt_recast rfl recasts n))
  have bare : ∀ name : Ident, R [name] [name] := fun _ => rfl
  have coupled := recast.coupled (recordNames_keeps bare (Query.RecastAt.coupled rfl (recordNames_keeps bare)))
  have names (x : Expr Query) (deep : ∀ y ∈ x.queries, y.height ≤ n) :
      x.walk (recordNames.walk (Query.editAt recordNames n)) = x.edit recordNames :=
    Expr.walk_congr (w := recordNames.walk pure) x fun y member => Query.editAt_eq_edit recordNames n y (deep y member)
  rw [names e deep, names e' deep'] at coupled
  exact (coupled [] [] .nil).2

end Requalify

/-- How a name in the condition of a relationship is written in a join. -/
inductive Requalified (model target owner label : String) : Path → Path → Prop
  | ofOwner {qualifier column} : qualifier.value = model →
    Requalified model target owner label [qualifier, column] [.ofName owner, column]
  | ofTarget {qualifier column} : qualifier.value = target →
    Requalified model target owner label [qualifier, column] [.ofName label, column]
  | kept {name} : name.length ≠ 2 → Requalified model target owner label name name

section Requalified

variable {model target owner label : String} {name name' : Path} {names names' : List Path}

theorem Requalified.of_path (changed : RelatedJoin.requalifyPath model target owner label name = .path name')
    (only : ∀ qualifier column, name = [qualifier, column] → qualifier.value = model ∨ qualifier.value = target) :
    Requalified model target owner label name name' := by
  unfold RelatedJoin.requalifyPath at changed
  split at changed
  · rename_i qualifier column
    split at changed
    · cases changed
      exact .ofOwner (eq_of_beq ‹_›)
    split at changed
    · cases changed
      exact .ofTarget (eq_of_beq ‹_›)
    · have either := only qualifier column rfl
      simp_all
  · rename_i other
    cases changed
    refine .kept fun two => ?_
    obtain ⟨qualifier, column, rfl⟩ := length_eq_two.mp two
    exact other _ _ rfl

theorem qualifiersOf_requalified (pairs : Forall₂ (Requalified model target owner label) names names')
    (different : model ≠ target) (short : ∀ name ∈ names, name.length ≤ 2) (q : String) :
    q ∈ qualifiersOf names' ↔ q = owner ∧ model ∈ qualifiersOf names ∨ q = label ∧ target ∈ qualifiersOf names := by
  induction pairs with
  | nil => simp [qualifiersOf]
  | cons here _ ih =>
    obtain ⟨first, rest⟩ := forall_mem_cons.mp short
    have later := ih rest
    cases here with
    | ofOwner same | ofTarget same =>
      simp only [qualifiersOf_pair, mem_cons, same, later]
      grind [Ident.ofName]
    | kept other =>
      have bare := Nat.lt_of_le_of_ne first other
      rw [qualifiersOf_bare bare, qualifiersOf_bare bare, later]

end Requalified

/-- A relationship column of a model has a join exactly if it leads to another model. The condition of the join has the
    names of the relationship's condition: those of two parts with the owner or with the joined model as qualifier,
    all others unchanged. Without longer names both qualifiers occur and no other one. -/
theorem relationships_join {l : Layer} {m : Model} {col : Column} {name : String} (model : m ∈ l.manifest.models)
    (column : col ∈ m.columns) (related : col.relationship = some name) (label : Option String) :
    ∃ r condition, l.relationship? name = some r ∧ Expr.parseItem r.condition = .ok condition ∧ (col.typeName = m.name →
        RelatedJoin.ofField l { Field.ofColumn (l.qualified m.name) col with label := label.map ([·]) } =
          .error (.selfRelationship r.name m.name)) ∧
      (col.typeName ≠ m.name → ∃ j,
        RelatedJoin.ofField l { Field.ofColumn (l.qualified m.name) col with label := label.map ([·]) } = .ok j ∧
        j.owner = label.getD m.name ∧ j.label = j.owner ++ "_" ++ col.name ∧ j.target = col.typeName ∧
        List.Forall₂ (Requalified m.name col.typeName j.owner j.label) condition.deepNames j.condition.deepNames ∧
        ((∀ name ∈ condition.deepNames, name.length ≤ 2) →
          ∀ q, q ∈ qualifiersOf j.condition.deepNames ↔ q = j.owner ∨ q = j.label)) := by
  obtain ⟨r, found, ofModel, ofTarget⟩ := Layer.column_sound model column related
  obtain ⟨first, second, condition, models, different, _, _, parsed, qualifiers⟩ :=
    Layer.relationship_sound (Layer.relationship?_mem found).1
  refine ⟨r, condition, found, parsed, fun same => ?_, fun other => ?_⟩
  · simp [RelatedJoin.ofField, Field.ofColumn, Field.plain, related, found, same, Layer.qualified]
    rfl
  let owner := label.getD m.name
  have called : Field.qualifier { Field.ofColumn (l.qualified m.name) col with label := label.map ([·]) } = owner := by
    cases label <;> rfl
  have made : RelatedJoin.ofField l { Field.ofColumn (l.qualified m.name) col with label := label.map ([·]) } =
      .ok ⟨owner, owner ++ "_" ++ col.name, col.typeName,
        RelatedJoin.requalify m.name col.typeName owner (owner ++ "_" ++ col.name) condition⟩ := by
    unfold RelatedJoin.ofField
    rw [called]
    simp [Field.ofColumn, Field.plain, related, found, Ne.symm other, Layer.qualified, parsed]
    rfl
  have either : ∀ q, q ∈ r.models → q = m.name ∨ q = col.typeName := by
    rw [models] at ofModel ofTarget ⊢
    grind
  have only : ∀ name ∈ condition.deepNames, ∀ qualifier column, name = [qualifier, column] →
      qualifier.value = m.name ∨ qualifier.value = col.typeName := by
    rintro _ member qualifier column rfl
    exact either _ ((qualifiers _).mp (mem_filterMap.mpr ⟨_, member, rfl⟩))
  have pairs := ((forall₂_and_left _ _).mpr ⟨only, RelatedJoin.requalify_names m.name col.typeName owner
    (owner ++ "_" ++ col.name) condition⟩).imp fun _ _ both => Requalified.of_path both.2 both.1
  refine ⟨_, made, rfl, rfl, rfl, pairs, fun short q => ?_⟩
  rw [qualifiersOf_requalified pairs (Ne.symm other) short]
  simp [qualifiers, ofModel, ofTarget]

/-- The band of an album is joined under an alias of the album. -/
theorem band_joins : ∃ j, RelatedJoin.ofField Context.sampleLayer
      { Field.ofColumn (Context.sampleLayer.qualified "Album")
          { name := "band", typeName := "Band", relationship := some "AlbumBand" } with label := some ["a"] } = .ok j ∧
    j.label = "a_band" ∧ ∀ q, q ∈ qualifiersOf j.condition.deepNames ↔ q = "a" ∨ q = "a_band" := by
  have model : Manifest.sampleAlbum ∈ Context.sampleLayer.manifest.models := mem_cons_self ..
  have column : { name := "band", typeName := "Band", relationship := some "AlbumBand" } ∈ Manifest.sampleAlbum.columns :=
    by simp [Manifest.sampleAlbum]
  obtain ⟨r, condition, found, parsed, _, joins⟩ := relationships_join model column rfl (some "a")
  obtain ⟨j, made, owner, label, _, _, exactly⟩ := joins (by decide)
  have short : ∀ name ∈ condition.deepNames, name.length ≤ 2 := by
    have run : ∀ r ∈ Context.sampleLayer.relationship? "AlbumBand", ∃ e, Expr.parseItem r.condition = .ok e ∧
        ∀ name ∈ e.deepNames, name.length ≤ 2 := by
      decide +kernel
    obtain ⟨e, read, holds⟩ := run r found
    cases parsed.symm.trans read
    exact holds
  rw [owner] at label
  have label : j.label = "a_band" := label
  have exactly := exactly short
  rw [owner, label] at exactly
  exact ⟨j, made, label, exactly⟩

end SemanticLayer
