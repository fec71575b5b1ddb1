import SemanticLayer.Proofs.Guards

/-! # FROM clauses that swell

Joining is done inside the queries of a FROM clause first, and then related models are joined to it. Both leave its
relations distinct and its conditions clear, if the joins fit.
-/

namespace SemanticLayer

open Sql List

namespace Context

variable {c : Context} {targets : List String}

section Walking

variable {m : Type → Type} [Monad m] [LawfulMonad m] {J : Judgement m} {w : Expr.Walk m Query Query}
  {related : Query → Query → Prop}

/-- An expression of a FROM clause in the place of another one that sees the same fields. -/
def Seen (related : Query → Query → Prop) (p p' : List Field × Expr Query) : Prop :=
  p'.1 = p.1 ∧ p.2.Renamed Eq related p'.2

private theorem seen_map (fields : List Field) {l l' : List (Expr Query)}
    (pairs : Forall₂ (Expr.Renamed Eq related) l l') :
    Forall₂ (Seen related) (l.map (fields, ·)) (l'.map (fields, ·)) :=
  forall₂_map_left_iff.mpr (forall₂_map_right_iff.mpr (pairs.imp fun _ _ h => ⟨rfl, h⟩))

/-- The expressions of a walked relation see what they saw. -/
structure SeenIn (c : Context) (related : Query → Query → Prop) (r r' : Relation Query) : Prop where
  fields : c.relationFields r' = c.relationFields r
  exprs : Forall₂ (Seen related) (c.relationExprs r) (c.relationExprs r')

/-- The expressions of walked joins see what they saw. -/
structure SeenInAll (c : Context) (related : Query → Query → Prop) (js js' : List (Join Query)) : Prop where
  fields : c.joinsFields js' = c.joinsFields js
  exprs : ∀ left, Forall₂ (Seen related) (c.joinsExprs left js) (c.joinsExprs left js')

theorem constraint_exprs {constraint constraint' : JoinConstraint Query}
    (matched : constraint.Matches (Expr.Renamed Eq related) constraint') :
    Forall₂ (Expr.Renamed Eq related) constraint.exprs constraint'.exprs := by
  cases matched with
  | condition h => exact .cons h .nil
  | columns | natural | none => exact .nil

theorem seen_congruence : Relation.Congruence (Expr.Renamed Eq related) related (fun r r' => r' = r)
    (c.SeenIn related) (c.SeenInAll related) where
  table _ visited := by
    subst visited
    exact ⟨by rw [relationFields, relationFields], by rw [relationExprs, relationExprs]; exact .nil⟩
  function _ _ visited := by
    subst visited
    exact ⟨by rw [relationFields, relationFields], by rw [relationExprs, relationExprs]; exact .nil⟩
  derived _ visited := by
    subst visited
    exact ⟨by rw [relationFields, relationFields], by rw [relationExprs, relationExprs]; exact .nil⟩
  nested head rest visited := by
    subst visited
    refine ⟨by rw [relationFields, relationFields, head.fields, rest.fields], ?_⟩
    rw [relationExprs, relationExprs, head.fields]
    exact rel_append head.exprs (rest.exprs _)
  unnest arrays visited := by
    subst visited
    refine ⟨by rw [relationFields, relationFields], ?_⟩
    rw [relationExprs, relationExprs]
    exact seen_map [] arrays
  pivot _ _ visited := by
    subst visited
    exact ⟨by rw [relationFields, relationFields], by rw [relationExprs, relationExprs]; exact .nil⟩
  other _ visited := by
    subst visited
    exact ⟨by rw [relationFields, relationFields], by rw [relationExprs, relationExprs]; exact .nil⟩
  nil := ⟨rfl, fun left => by rw [joinsExprs]; exact .nil⟩
  cons _ head constraint rest := by
    refine ⟨by rw [joinsFields, joinsFields, head.fields, rest.fields], fun left => ?_⟩
    rw [joinsExprs, joinsExprs, head.fields]
    exact rel_append (rel_append head.exprs (seen_map _ (constraint_exprs constraint))) (rest.exprs _)

theorem walk_sourceExprs (renames : w.Renames J Eq related) (source : List (FromItem Query)) :
    J.holds (source.mapM (FromItem.walk w pure)) fun source' =>
      Forall₂ (Seen related) (c.sourceExprs source) (c.sourceExprs source') := by
  have item : ∀ item : FromItem Query, J.holds (item.walk w pure) fun item' =>
      Forall₂ (Seen related) (c.itemExprs item) (c.itemExprs item') := by
    intro item
    refine J.mono (FromItem.walk_lifts (seen_congruence (c := c)) ⟨Expr.walk_renamed renames, renames.query,
      fun _ => J.pure rfl⟩ item) fun _ ⟨head, rest⟩ => ?_
    rw [itemExprs, itemExprs, head.fields]
    exact rel_append head.exprs (rest.exprs _)
  exact J.mono (J.mapM item source) fun source' pairs => rel_flatMap pairs fun _ _ h => h

theorem SafeCondition.seen {s : Scope} {p p' : List Field × Expr Query} (safe : c.SafeCondition targets s p.1 p.2)
    (seen : Seen related p p') : c.SafeCondition targets s p'.1 p'.2 := by
  obtain ⟨same, renamed⟩ := seen
  rw [same]
  refine safe.imp_right fun ⟨distinct, empty, secure⟩ => ⟨distinct, ?_, fun name member => ?_⟩
  · have pairs := renamed.queries
    rw [empty] at pairs
    exact forall₂_nil_left_iff.mp pairs
  · have names := renamed.names
    rw [forall₂_eq_eq_eq] at names
    exact secure name (names ▸ member)

end Walking

section Adding

theorem joinsExprs_append : ∀ (left : List Field) (js js' : List (Join Query)),
    c.joinsExprs left (js ++ js') = c.joinsExprs left js ++ c.joinsExprs (left ++ c.joinsFields js) js'
  | left, [], js' => by rw [joinsExprs, joinsFields, append_nil, nil_append, nil_append]
  | left, .mk _ _ relation constraint :: js, js' => by
    simp only [cons_append, joinsExprs, joinsFields, joinsExprs_append _ js js', append_assoc]

theorem acceptsJoins_append : ∀ {js js' : List (Join Query)}, c.AcceptsJoins js → c.AcceptsJoins js' →
    c.AcceptsJoins (js ++ js')
  | [], _, _, others => others
  | .mk _ _ _ _ :: _, _, accepted, others => by
    rw [AcceptsJoins] at accepted
    rw [cons_append, AcceptsJoins]
    exact ⟨accepted.1, acceptsJoins_append accepted.2 others⟩

variable (c) in
theorem itemExprs_appendJoin (j : RelatedJoin) (item : FromItem Query) : c.itemExprs (appendJoin j.toJoin item) =
      c.itemExprs item ++ [(c.itemFields item ++ c.joinedFields j, j.condition)] := by
  simp only [itemExprs, appendJoin, joinsExprs_append, append_assoc]
  simp only [RelatedJoin.toJoin, joinsExprs, relationExprs, relationFields, JoinConstraint.exprs, map_cons,
    map_nil, append_nil, nil_append, itemFields, joinedFields, append_assoc]

theorem qualifier_joinedFields {j : RelatedJoin} {f : Field} (member : f ∈ c.joinedFields j) :
    f.qualifier = j.label := by
  obtain ⟨g, _, rfl⟩ := mem_map.mp member
  simp [Field.qualifier, Field.relationName, Field.relabel, DottedName.suffix]

theorem joinedColumn_joinedFields {j : RelatedJoin} (joined : j.target ∈ targets) {f : Field}
    (member : f ∈ c.joinedFields j) : c.JoinedColumn targets f.name := by
  obtain ⟨g, inTable, rfl⟩ := mem_map.mp member
  exact ⟨j.target, joined, g, inTable, rfl⟩

/-- A FROM clause with joins added to it. A field is an old one, or its relation can be found by its name. -/
structure Swollen (c : Context) (targets : List String) (s : Scope) (source source' : List (FromItem Query)) : Prop where
  swells : Frame.Swells (fun f => c.JoinedColumn targets f.name) { fields := c.sourceFields source }
    { fields := c.sourceFields source' }
  distinct : DistinctFields (c.sourceFields source')
  called : ∀ f ∈ c.sourceFields source', f ∈ c.sourceFields source ∨ f.qualifier ∈ source'.flatMap relationNames
  conditions : ∀ p ∈ c.sourceExprs source', c.SafeCondition targets s p.1 p.2
  inner : ∀ reach, source'.flatMap (FromItem.inner reach) = source.flatMap (FromItem.inner reach)
  accepted : c.AcceptsSource source → c.AcceptsSource source'

theorem Swollen.refl {s : Scope} {source : List (FromItem Query)} (distinct : DistinctFields (c.sourceFields source))
    (conditions : ∀ p ∈ c.sourceExprs source, c.SafeCondition targets s p.1 p.2) : c.Swollen targets s source source :=
  ⟨.refl _ _, distinct, fun _ => .inl, conditions, fun _ => rfl, id⟩

theorem appendWhere_cases (p : FromItem Query → Bool) (join : Join Query) (items : List (FromItem Query)) :
    appendWhere p join items = items ∨ ∃ before item after, items = before ++ item :: after ∧
      appendWhere p join items = before ++ appendJoin join item :: after := by
  unfold appendWhere
  by_cases inside : (items.findIdx? p).getD 0 < items.length
  · obtain ⟨before, item, after, split, _, result⟩ := exists_of_modify (appendJoin join) inside
    exact .inr ⟨before, item, after, split, result⟩
  · exact .inl (modify_eq_self (Nat.not_lt.mp inside))

theorem DistinctFields.perm {l l' : List Field} (distinct : DistinctFields l) (perm : l.Perm l') : DistinctFields l' :=
  (perm.pairwise_iff fun apart same named => apart same.symm named.symm).mp distinct

variable {s : Scope} {source : List (FromItem Query)} {j : RelatedJoin}

/-- The words that a condition is looked up by are not in a smaller frame either. -/
theorem Plain.sublist {fields fields' : List Field} {name : DottedName}
    (plain : c.Plain targets ({ fields := fields' } :: s) name) (fewer : fields.Sublist fields') :
    c.Plain targets ({ fields } :: s) name := by
  intro word member
  obtain ⟨lacks, apart⟩ := plain word member
  obtain ⟨here, outside⟩ := forall_mem_cons.mp lacks
  exact ⟨forall_mem_cons.mpr ⟨fun f inside => here f (fewer.subset inside), outside⟩, apart⟩

section Appending

variable (c) (before after : List (FromItem Query)) (item : FromItem Query) (j)

theorem sourceFields_appended : (c.sourceFields (before ++ appendJoin j.toJoin item :: after)).Perm
    (c.sourceFields (before ++ item :: after) ++ c.joinedFields j) := by
  simp only [sourceFields, flatMap_append, flatMap_cons, itemFields_appendJoin, append_assoc]
  exact .append_left _ (.append_left _ perm_append_comm)

theorem sourceFields_sublist : (c.sourceFields (before ++ item :: after)).Sublist
    (c.sourceFields (before ++ appendJoin j.toJoin item :: after)) := by
  simp only [sourceFields, flatMap_append, flatMap_cons, itemFields_appendJoin]
  exact (Sublist.refl _).append ((sublist_append_left _ _).append (.refl _))

/-- The only new expression is the condition of the join. It sees fields of the FROM clause. -/
theorem mem_sourceExprs_appended {p : List Field × Expr Query}
    (member : p ∈ c.sourceExprs (before ++ appendJoin j.toJoin item :: after)) :
    p ∈ c.sourceExprs (before ++ item :: after) ∨ p.2 = j.condition ∧
      p.1.Sublist (c.sourceFields (before ++ appendJoin j.toJoin item :: after)) := by
  simp only [sourceExprs, flatMap_append, flatMap_cons, itemExprs_appendJoin, mem_append, mem_singleton] at member ⊢
  rcases member with earlier | (inItem | rfl) | later
  · exact .inl (.inl earlier)
  · exact .inl (.inr (.inl inItem))
  · refine .inr ⟨rfl, ?_⟩
    simp only [sourceFields, flatMap_append, flatMap_cons, itemFields_appendJoin]
    exact (sublist_append_left _ _).trans (sublist_append_right _ _)
  · exact .inl (.inr (.inr later))

theorem relationNames_appended : (before ++ appendJoin j.toJoin item :: after).flatMap relationNames =
    (before.flatMap relationNames ++ relationNames item) ++ j.label :: after.flatMap relationNames := by
  have named : relationNames (appendJoin j.toJoin item) = relationNames item ++ [j.label] := by
    unfold relationNames appendJoin
    rw [map_append, ← cons_append, filterMap_append]
    simp [RelatedJoin.toJoin, relationName?]
  simp only [flatMap_append, flatMap_cons, named, append_assoc, cons_append, nil_append]

end Appending

theorem Swollen.addTo {sel : Select Query} (swollen : c.Swollen targets s source sel.source)
    (fits : c.Fits targets ({ fields := c.sourceFields source } :: s) j) (joined : j.target ∈ targets)
    (nonempty : c.sourceFields source ≠ []) : c.Swollen targets s source (j.addTo sel).source := by
  unfold RelatedJoin.addTo
  split
  · exact swollen
  rename_i free
  dsimp only
  rcases appendWhere_cases (fun item => (relationNames item).contains j.owner) j.toJoin sel.source with
    same | ⟨before, item, after, parts, result⟩
  · rwa [same]
  rw [result]
  rw [parts] at swollen free
  have fields := c.sourceFields_appended j before after item
  have larger : Frame.Swells (fun f => c.JoinedColumn targets f.name) { fields := c.sourceFields source }
      { fields := c.sourceFields (before ++ appendJoin j.toJoin item :: after) } := by
    obtain ⟨extra, perm, fresh⟩ := swollen.swells.added
    refine ⟨swollen.swells.kept.trans (c.sourceFields_sublist j before after item), ⟨extra ++ c.joinedFields j, ?_, ?_⟩,
      fun empty => absurd empty nonempty⟩
    · rw [← append_assoc]
      exact fields.trans (perm.append_right _)
    · exact forall_mem_append.mpr ⟨fresh, fun f member => joinedColumn_joinedFields joined member⟩
  have distinct : DistinctFields (c.sourceFields (before ++ appendJoin j.toJoin item :: after)) := by
    refine DistinctFields.perm (pairwise_append.mpr ⟨swollen.distinct, fits.distinct, ?_⟩) fields.symm
    intro f member g new same
    rw [qualifier_joinedFields new] at same
    -- No relation is called like the joined model.
    rcases swollen.called f member with old | called
    · exact absurd same (fits.fresh _ mem_cons_self f old)
    · obtain ⟨item', listed, here⟩ := mem_flatMap.mp called
      refine absurd (any_eq_true.mpr ⟨item', listed, ?_⟩) free
      simpa [← same] using here
  refine ⟨larger, distinct, fun f member => ?_, fun p member => ?_, fun reach => ?_, fun accepted => ?_⟩
  · rw [relationNames_appended]
    rcases mem_append.mp (fields.mem_iff.mp member) with old | new
    · refine (swollen.called f old).imp_right fun called => ?_
      simp only [flatMap_append, flatMap_cons, mem_append, mem_cons] at called ⊢
      tauto
    · rw [qualifier_joinedFields new]
      exact .inr (mem_append_right _ mem_cons_self)
  · rcases c.mem_sourceExprs_appended j before after item member with old | ⟨same, fewer⟩
    · exact swollen.conditions p old
    · refine .inr ⟨distinct.sublist fewer, same ▸ fits.queries, fun name named => .inl (Plain.steady ?_)⟩
      exact ((fits.names name (same ▸ named)).swells (.cons larger (Scope.Swells.refl _ s))).sublist fewer
  · rw [← swollen.inner reach]
    simp only [flatMap_append, flatMap_cons, RelatedJoin.inner_appendJoin, fits.queries, append_nil]
  · obtain ⟨first, rest⟩ := forall_mem_append.mp (swollen.accepted accepted)
    obtain ⟨here, later⟩ := forall_mem_cons.mp rest
    refine forall_mem_append.mpr ⟨first, forall_mem_cons.mpr ⟨⟨here.1, acceptsJoins_append here.2 ?_⟩, later⟩⟩
    rw [RelatedJoin.toJoin, AcceptsJoins, AcceptsRelation, AcceptsJoins]
    exact ⟨⟨_, rfl⟩, trivial⟩

theorem Swollen.addAll (nonempty : c.sourceFields source ≠ []) : ∀ {joins : List RelatedJoin} {sel : Select Query},
    c.Swollen targets s source sel.source →
    (∀ j ∈ joins, c.Fits targets ({ fields := c.sourceFields source } :: s) j ∧ j.target ∈ targets) →
    c.Swollen targets s source (joins.foldl (fun sel j => j.addTo sel) sel).source
  | [], _, swollen, _ => swollen
  | j :: joins, sel, swollen, fit => by
    obtain ⟨⟨fits, joined⟩, rest⟩ := forall_mem_cons.mp fit
    rw [foldl_cons]
    exact addAll nonempty (swollen.addTo fits joined nonempty) rest

end Adding

end Context

end SemanticLayer
