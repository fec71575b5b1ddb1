import SemanticLayer.Proofs.Pairings
import SemanticLayer.Proofs.Unambiguous

/-! # The joins for relationship columns and for group keys

Both kinds of joins follow a rule, so compiling them pairs the SELECTs of a query with those of the result, which gets
models as further WITH entries. Main statement: `Context.compileJoins_as`.
-/

namespace SemanticLayer

open Sql
open Judgement (returns returns_bind)

theorem Sql.Path.Qualified.trans {name name' name'' : Path} (first : name.Qualified name')
    (second : name'.Qualified name'') : name.Qualified name'' := by
  rcases first with rfl | ⟨bare, relation, rfl, rfl⟩
  · exact second
  · rcases second with rfl | ⟨_, _, single, _⟩
    · exact .inr ⟨bare, relation, rfl, rfl⟩
    · cases single

/-- Some of the names goes through a relationship column. -/
def Scope.GoesThrough (s : Scope) (names : List Path) (f : Field) : Prop :=
  ∃ name ∈ names, ∃ column, s.reference name.values = .ok (.through f [column])

/-- The rule for dotted names. A relationship column gets its join for sure if no other one that names go through has a
join called so. -/
def JoinRule.dereferencing (l : Layer) : JoinRule where
  uses := Scope.GoesThrough
  sure s names f := s.GoesThrough names f ∧ ∀ g, s.GoesThrough names g → g.joinLabel = f.joinLabel → g = f
  renamed s name name' := ∃ between, Dereferences l s name between ∧ between.Qualified name'
  qualified := fun ⟨between, follows, first⟩ second => ⟨between, follows, first.trans second⟩
  addsKeys := False

def JoinRule.keying : JoinRule where
  uses _ _ _ := True
  sure _ _ _ := False
  renamed _ := Path.Qualified
  qualified := .trans
  addsKeys := True

section Finders

variable (l : Layer)

theorem dereference_over {s : Scope} {name : Path} {good final : RelatedJoin → Prop}
    (asks : ∀ f column j, s.reference name.values = .ok (.through f [column]) → j.Answers l f → good j) :
    (returns.collecting good final).holds (dereference l s name) ((Expr.path name).Over (fun name name' =>
      Dereferences l s name name' ∧ ∀ f column, s.reference name.values = .ok (.through f [column]) →
        ∃ j, final j ∧ j.label = f.joinLabel) Eq) := by
  rintro before ⟨e, after⟩ run
  rcases dereference_eq_ok run with ⟨direct, rfl, rfl⟩ | ⟨f, column, j, m, meaning, asked, found, rfl, rfl⟩
  · refine ⟨List.Subset.refl _, fun _ => .inl, fun _ => Expr.over_path ⟨.kept direct, fun f column goes => ?_⟩ rfl⟩
    exact absurd goes (direct f [column])
  · have answers : j.Answers l f := ⟨asked, by simp [found]⟩
    have noted := j.note_cases before
    refine ⟨by grind, fun o member => ?_, fun all => Expr.over_path ⟨.joined meaning asked, fun g rest goes => ?_⟩ ?_⟩
    · have new : o ∈ before ∨ o = j := by grind
      exact new.imp_right (by rintro rfl; exact asks f column o meaning answers)
    · cases meaning.symm.trans goes
      obtain ⟨o, member, same⟩ : ∃ o ∈ j.note before, o.label = j.label := by grind
      exact ⟨o, all o member, same.trans answers.names.2⟩
    · obtain ⟨_, _, _, _, split, _⟩ := Scope.relationship_of_through meaning
      rw [← split]
      simp [DottedName.suffix, Path.values, Ident.ofName_value]

theorem dereferencing_describes : (JoinRule.dereferencing l).Describes l (dereferences l) := by
  intro a s
  have walked : ∀ final : RelatedJoin → Prop, (returns.collecting (fun j : RelatedJoin =>
      ∃ f, s.GoesThrough (a.names .written) f ∧ j.Answers l f) final).holds
      (a.walk { Expr.Walk.keep _ _ with path := dereference l s }) fun a' => a'.select.source = a.select.source ∧
        a.Over False (Expr.Over (fun name name' => Dereferences l s name name' ∧
          ∀ f column, s.reference name.values = .ok (.through f [column]) →
            ∃ j, final j ∧ j.label = f.joinLabel) Eq) a' := by
    intro final
    refine Judgement.mono _ (Clauses.walk_over a fun e member => Expr.walk_over (fun _ => rfl) (fun name => ?_) e
      (fun name named => dereference_over l fun f column j goes answers => ?_) fun q _ => Judgement.pure _ rfl)
      fun _ h => ⟨h.1, h.2⟩
    · refine Judgement.pure _ ⟨⟨.cons ⟨.kept (s.bare_not_through name), fun f column goes => ?_⟩ .nil, .nil⟩, rfl⟩
      exact absurd goes (s.bare_not_through name f _)
    · exact ⟨f, ⟨name, List.mem_flatMap.mpr ⟨e, member, Expr.paths_subset_names e _ named⟩, column, goes⟩, answers⟩
  refine returns.mono (Judgement.collecting_run (fun h b returned final => h final b returned) walked)
    fun r ⟨sound, source, outlined⟩ => ⟨source, ?_, sound, ?_⟩
  · refine outlined.comp (.refl (fun _ => rfl) _) ?_
    rintro e e' _ h rfl
    exact ⟨⟨h.names.imp fun _ name' follows => ⟨name', follows.1, .inl rfl⟩, h.queries⟩, h.same⟩
  · rintro f ⟨⟨name, named, column, goes⟩, only⟩
    obtain ⟨_, _, _, noted⟩ := forall₂_exists (List.rel_flatMap outlined.exprs fun _ _ h => h.names) name named
    obtain ⟨j, member, label⟩ := noted f column goes
    -- The join that was noted under this name is the one for this column.
    obtain ⟨g, used, answers⟩ := sound j member
    cases only g used (answers.names.2.symm.trans label)
    exact ⟨j, member, answers⟩

theorem keying_describes : JoinRule.keying.Describes l (groupKeyJoins l) := by
  intro a s
  have same : ∀ e : Expr Query, e.Over Path.Qualified Eq e := .refl (fun _ => .inl rfl) fun _ => rfl
  have refl : ∀ places, Place.OverAll True (Expr.Over Path.Qualified Eq) places places := fun places =>
    .of_forall₂ (List.forall₂_same.mpr fun p _ => ⟨rfl, same p.2⟩)
  refine returns.mono (groupKeyJoins_expands l a s) ?_
  rintro ⟨_, joins⟩ (⟨_, _, unchanged⟩ | ⟨keys, modifiers, keys', grouped, done, rfl⟩)
  · cases unchanged
    exact ⟨rfl, .refl same a, by simp, by simp [JoinRule.keying]⟩
  · dsimp only at done
    refine ⟨rfl, ⟨?_, ?_⟩, ?_, by simp [JoinRule.keying]⟩
    · have added : Place.OverAll True (Expr.Over Path.Qualified Eq) (keys.map (Place.groupKey, ·))
          (keys'.map (Place.groupKey, ·)) := by
        clear grouped
        induction done with
        | nil => exact .nil
        | @key e _ _ _ _ _ _ _ _ _ _ _ _ _ ih => exact .key trivial rfl (.cons ⟨rfl, same e⟩ ih)
        | @other e _ _ _ _ _ ih => exact .cons ⟨rfl, same e⟩ ih
      unfold Clauses.places Clauses.laterPlaces
      rw [grouped]
      exact (refl _).append (((((refl _).append added).append (refl _)).append (refl _)).append (refl _))
    · unfold Clauses.rest
      rw [grouped]
      rfl
    · clear grouped
      dsimp only
      induction done with
      | nil => simp
      | key _ _ join model _ _ ih =>
        exact List.forall_mem_cons.mpr ⟨⟨_, trivial, join, by simp [model]⟩, ih⟩
      | other _ _ ih => exact ih

end Finders

namespace Context

/-- A query with models as further WITH entries, in some order. -/
structure Supplied (c : Context) (q q' : Query) : Prop where
  rest : q' = { q with ctes := q'.ctes }
  entries : ∃ added, q'.ctes.Perm (added ++ q.ctes) ∧ ∀ cte ∈ added, cte.query ∈ c.modelTexts

/-- What compiling joins makes of a query. Its SELECTs are paired with joined ones, of which more may be said, and
models are added. No column that is surely used is left without a SELECT to join it. -/
def JoinedAs (c : Context) (rule : JoinRule) (also : (Scope → Query → Query → Prop) → Scope → List (FromItem Query) →
    List RelatedJoin → Clauses → Clauses → Prop) (q q' : Query) : Prop :=
  ∃ joined, c.Supplied joined q' ∧ Query.Paired (fun related parent a a' => ∃ kept joins,
      c.JoinedBy rule related (c.frame a :: parent) kept joins a a' ∧
        also related (c.frame a :: parent) kept joins a a') [] q joined ∧
    ∀ f, ¬ c.Escapes rule.sure [] q f

variable {c : Context}

theorem addModels_supplied (models : List String) (q : Query) :
    returns.holds (addModels c.layer models q) (c.Supplied q) := by
  refine addModels_keeps (fun before name m sql body member written read kept => ?_) models q
    ⟨by cases q; rfl, [], .refl _, List.forall_mem_nil _⟩
  obtain ⟨rest, added, perm, texts⟩ := kept
  refine ⟨?_, _ :: added, With.push_perm.trans (perm.cons _),
    List.forall_mem_cons.mpr ⟨mem_modelTexts member written read, texts⟩⟩
  rw [rest]
  rfl

theorem compileJoins_as {rule : JoinRule} {find : JoinFinder} (describes : rule.Describes c.layer find)
    {also : (Scope → Query → Query → Prop) → Scope → List (FromItem Query) → List RelatedJoin → Clauses → Clauses →
      Prop} (more : ∀ related parent kept joins a a', c.JoinedBy rule related (c.frame a :: parent) kept joins a a' →
      also related (c.frame a :: parent) kept joins a a') (q : Query) : returns.holds (do
      let (q, targets) ← c.joinQuery find q
      return With.sort (← addModels c.layer targets q)) (c.JoinedAs rule also q) := by
  refine returns_bind (fun _ => joinQuery_paired describes) fun (joined, targets) ⟨paired, left⟩ =>
    returns_bind (addModels_supplied targets joined) fun added supplied => returns.pure ?_
  obtain ⟨rest, entries, perm, texts⟩ := supplied
  have sorted : With.sort added = { joined with ctes := (With.sort added).ctes } := by
    rw [rest]
    unfold With.sort
    split <;> rfl
  refine ⟨joined, ⟨sorted, entries, (With.sort_reordered added).perm.trans perm, texts⟩, paired.mono ?_, left⟩
  rintro related parent a a' ⟨kept, joins, joined⟩
  exact ⟨kept, joins, joined, more related parent kept joins a a' joined⟩

def sampleContext : Context := ⟨.ofLayer sampleLayer, sampleLayer⟩

theorem sample_run {text : String} {p r : Query → Query → Prop}
    (run : ∃ q, readQuery text = .ok q ∧ ∃ q', sampleContext.compileRelationships q = .ok q' ∧ p q q')
    (general : ∀ q q', sampleContext.compileRelationships q = .ok q' → p q q' → r q q') :
    ∃ q q', readQuery text = .ok q ∧ sampleContext.compileRelationships q = .ok q' ∧ p q q' ∧ r q q' :=
  returns_two run fun q q' compiled holds => ⟨holds, general q q' compiled holds⟩

def joinCounts (q : Query) : List (List Nat) :=
  (q.body.selects q.orderBy).map fun a => a.select.source.map (·.joins.length)

end Context

end SemanticLayer
