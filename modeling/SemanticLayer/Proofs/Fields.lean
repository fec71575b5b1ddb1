import SemanticLayer.Proofs.Joins
import SemanticLayer.Proofs.Renaming

/-! # The fields of a FROM clause

Joining a related model to a FROM clause adds the fields of that model. In the larger scope a name may come to mean
one of them, but it does not come to mean any other field.
-/

namespace SemanticLayer

open Sql List

namespace Sql

def JoinKind.names : JoinKind Query → List Path
  | .asOf condition => condition.names
  | .plain _ | .cross | .crossApply | .outerApply => []

def JoinConstraint.names : JoinConstraint Query → List Path
  | .condition expr => expr.names
  | .columns _ | .natural | .none => []

mutual

/-- The names in the expressions of a relation, within reach. -/
def Relation.names (reach : Reach) : Relation Query → List Path
  | .table _ none _ _ hints => reach.aside hints.names
  | .table _ (some args) _ _ hints => reach.aside (Expr.names.namesAll args ++ hints.names)
  | .derived _ _ _ => []
  | .nested first joins _ => first.names reach ++ Join.namesAll reach joins
  | .unnest arrays _ => Expr.names.namesAll arrays
  | .pivot source turn => source.names reach ++ reach.aside turn.names
  | .other construct => reach.aside construct.names

def Join.namesAll (reach : Reach) : List (Join Query) → List Path
  | [] => []
  | .mk _ kind relation constraint :: rest =>
    relation.names reach ++ reach.aside kind.names ++ constraint.names ++ Join.namesAll reach rest

end

def FromItem.names (reach : Reach) (item : FromItem Query) : List Path :=
  item.first.names reach ++ Join.namesAll reach item.joins

end Sql

namespace Context

variable (c : Context)

/-- Two lists correspond. What an analysis does not visit may get lost. -/
abbrev Correspond {α : Type} (reach : Reach) (related : α → α → Prop) (new : α → Prop) : List α → List α → Prop :=
  Tracks related (fun _ => reach = .written) new

/-- A relation in the place of another one: it has the same fields and the same names, and the queries in it
correspond to those of the other one. -/
structure Stands (reach : Reach) (related : Query → Query → Prop) (new : Query → Prop)
    (r r' : Relation Query) : Prop where
  fields : c.relationFields r' = c.relationFields r
  names : Correspond reach Eq (fun _ => False) (r.names reach) (r'.names reach)
  inner : Correspond reach related new (r.inner reach) (r'.inner reach)

section Walking

variable {c} {m : Type → Type} [Monad m] [LawfulMonad m] {J : Judgement m} {w : Expr.Walk m Query Query}
  {visit : Relation Query → m (Relation Query)} {related : Query → Query → Prop} {reach : Reach} {new : Query → Prop}

theorem Stands.refl (reach : Reach) (new : Query → Prop) (r : Relation Query) : c.Stands reach Eq new r r :=
  ⟨rfl, .refl _ fun _ _ => rfl, .refl _ fun _ _ => rfl⟩

theorem correspond_comp {α : Type} {R S T : α → α → Prop} {fresh fresh' fresh'' : α → Prop} {l l' l'' : List α}
    (compose : ∀ x ∈ l, ∀ x' x'', R x x' → S x' x'' → T x x'') (older : ∀ x' x'', fresh x' → S x' x'' → fresh'' x'')
    (newer : ∀ x, fresh' x → fresh'' x) (first : Correspond reach R fresh l l')
    (second : Correspond reach S fresh' l' l'') : Correspond reach T fresh'' l l'' :=
  first.comp second compose (fun _ => id) (fun _ _ _ => id) older newer

theorem correspond_trans {α : Type} {related : α → α → Prop} {fresh : α → Prop} {l l' l'' : List α}
    (first : Correspond reach related fresh l l') (second : Correspond reach Eq fresh l' l'') :
    Correspond reach related fresh l l'' := by
  refine correspond_comp ?_ ?_ (fun _ => id) first second
  · rintro x _ x' _ h rfl
    exact h
  · rintro x' _ new rfl
    exact new

theorem Stands.after {r r' r'' : Relation Query} (second : c.Stands reach Eq new r' r'')
    (first : c.Stands reach related new r r') : c.Stands reach related new r r'' :=
  ⟨second.fields.trans first.fields, correspond_trans first.names second.names,
    correspond_trans first.inner second.inner⟩

/-- What joins in the place of others have in common with them. -/
structure StandsAll (c : Context) (reach : Reach) (related : Query → Query → Prop) (new : Query → Prop)
    (js js' : List (Join Query)) : Prop where
  fields : c.joinsFields js' = c.joinsFields js
  names : Correspond reach Eq (fun _ => False) (Join.namesAll reach js) (Join.namesAll reach js')
  inner : Correspond reach related new (Join.innerAll reach js) (Join.innerAll reach js')

theorem kind_names {kind kind' : JoinKind Query} (matched : kind.Matches (Expr.Renamed Eq related) kind') :
    Forall₂ Eq kind.names kind'.names := by
  cases matched with
  | asOf h => exact h.names
  | plain | cross | crossApply | outerApply => exact .nil

theorem constraint_names {constraint constraint' : JoinConstraint Query}
    (matched : constraint.Matches (Expr.Renamed Eq related) constraint') :
    Forall₂ Eq constraint.names constraint'.names := by
  cases matched with
  | condition h => exact h.names
  | columns | natural | none => exact .nil

/-- A relation leaves its fields and its names as they are and relates the queries in it, if its parts do. -/
theorem stands_congruence : Relation.Congruence (Expr.Renamed Eq related) related (c.Stands reach Eq new)
    (c.Stands reach related new) (c.StandsAll reach related new) where
  table hints last := last.after ⟨by rw [relationFields, relationFields], (Tracks.of_pairs hints.names).aside reach,
    (Tracks.nil.append (.of_pairs hints.queries)).aside reach⟩
  function args hints last := by
    have args := Expr.Renamed.all args
    refine last.after ⟨by rw [relationFields, relationFields], ?_, ?_⟩
    · exact ((Tracks.of_pairs args.1).append (.of_pairs hints.names)).aside reach
    · exact ((Tracks.of_pairs args.2).append (.of_pairs hints.queries)).aside reach
  derived query last := last.after ⟨by rw [relationFields, relationFields], .nil, .single query⟩
  nested head rest last := last.after ⟨by rw [relationFields, relationFields, head.fields, rest.fields],
    head.names.append rest.names, head.inner.append rest.inner⟩
  unnest arrays last := by
    have arrays := Expr.Renamed.all arrays
    exact last.after ⟨by rw [relationFields, relationFields], .of_pairs arrays.1, .of_pairs arrays.2⟩
  pivot head turn last := last.after ⟨by rw [relationFields, relationFields],
    head.names.append ((Tracks.of_pairs turn.names).aside reach),
    head.inner.append ((Tracks.of_pairs turn.queries).aside reach)⟩
  other construct last := last.after ⟨by rw [relationFields, relationFields],
    (Tracks.of_pairs construct.names).aside reach, (Tracks.of_pairs construct.queries).aside reach⟩
  nil := ⟨rfl, .nil, .nil⟩
  cons kind head constraint rest := by
    refine ⟨by rw [joinsFields, joinsFields, head.fields, rest.fields], ?_, ?_⟩
    · exact ((head.names.append ((Tracks.of_pairs (kind_names kind)).aside reach)).append
        (.of_pairs (constraint_names constraint))).append rest.names
    · exact ((head.inner.append ((Tracks.of_pairs (kind.queries fun _ _ h => h.queries)).aside reach)).append
        (.of_pairs (constraint.queries fun _ _ h => h.queries))).append rest.inner

/-- A walked FROM clause: the same fields, the same names, and queries that correspond. -/
structure Walked (c : Context) (reach : Reach) (related : Query → Query → Prop) (new : Query → Prop)
    (source source' : List (FromItem Query)) : Prop where
  fields : c.sourceFields source' = c.sourceFields source
  names : Correspond reach Eq (fun _ => False) (source.flatMap (FromItem.names reach))
    (source'.flatMap (FromItem.names reach))
  inner : Correspond reach related new (source.flatMap (FromItem.inner reach)) (source'.flatMap (FromItem.inner reach))

theorem walk_source (renames : w.Renames J Eq related) (visits : ∀ r, J.holds (visit r) (c.Stands reach Eq new r))
    (source : List (FromItem Query)) :
    J.holds (source.mapM (FromItem.walk w visit)) (c.Walked reach related new source) := by
  have item : ∀ item : FromItem Query, J.holds (item.walk w visit) fun item' =>
      c.itemFields item' = c.itemFields item ∧
        Correspond reach Eq (fun _ => False) (item.names reach) (item'.names reach) ∧
        Correspond reach related new (item.inner reach) (item'.inner reach) := by
    intro item
    refine J.mono (FromItem.walk_lifts stands_congruence ⟨Expr.walk_renamed renames, renames.query, visits⟩ item)
      fun _ ⟨head, rest⟩ => ⟨?_, head.names.append rest.names, head.inner.append rest.inner⟩
    rw [itemFields, itemFields, head.fields, rest.fields]
  refine J.mono (J.mapM item source) fun source' pairs =>
    ⟨?_, .flatMap (pairs.imp fun _ _ h => h.2.1), .flatMap (pairs.imp fun _ _ h => h.2.2)⟩
  induction pairs with
  | nil => rfl
  | cons first _ ih =>
    unfold sourceFields at ih ⊢
    rw [flatMap_cons, flatMap_cons, first.1, ih]

end Walking

section Naming

variable {c}

theorem objectFields_named (table : TableName) (kind : ObjectKind) :
    ∀ f ∈ c.objectFields table kind, f.relationName ≠ [] := by
  have unlabeled : ∀ f : Field, f.label = none → f.relationName ≠ [] := by
    intro f none
    simp [Field.relationName, none]
  intro f member
  apply unlabeled
  unfold objectFields at member
  cases kind with
  | model | metric =>
    dsimp only at member
    split at member
    · obtain ⟨column, _, rfl⟩ := mem_map.mp member
      rfl
    · cases member
  | cumulativeMetric =>
    dsimp only at member
    split at member
    · simp only [mem_cons, not_mem_nil, or_false] at member
      rcases member with rfl | rfl <;> rfl
    · cases member
  | view => cases member

theorem relabeled_named (label : Option Alias) {fields : List Field} (named : ∀ f ∈ fields, f.relationName ≠ []) :
    ∀ f ∈ relabeled label fields, f.relationName ≠ [] := by
  intro f member
  cases label with
  | none => exact named f member
  | some label =>
    obtain ⟨g, _, rfl⟩ := mem_map.mp member
    simp [Field.relationName, Field.relabel]

theorem tableFields_named (name : Path) : ∀ f ∈ c.tableFields name, f.relationName ≠ [] := by
  intro f member
  unfold tableFields at member
  split at member
  · split at member
    · exact objectFields_named _ _ f member
    · cases member
  · cases member

mutual

theorem relationFields_named : ∀ r : Relation Query, ∀ f ∈ c.relationFields r, f.relationName ≠ []
  | .table name none _ label _ => by
    rw [relationFields]
    exact relabeled_named label (tableFields_named name)
  | .nested first joins label => by
    rw [relationFields]
    exact relabeled_named label (forall_mem_append.mpr ⟨relationFields_named first, joinsFields_named joins⟩)
  | .table _ (some _) _ _ _ | .derived _ _ _ | .unnest _ _ | .pivot _ _ | .other _ => by
    rw [relationFields]
    exact forall_mem_nil _

theorem joinsFields_named : ∀ js : List (Join Query), ∀ f ∈ c.joinsFields js, f.relationName ≠ []
  | [] => by
    rw [joinsFields]
    exact forall_mem_nil _
  | .mk _ _ relation _ :: rest => by
    rw [joinsFields]
    exact forall_mem_append.mpr ⟨relationFields_named relation, joinsFields_named rest⟩

end

theorem named_cons {scope : Scope} (named : scope.Named) (source : List (FromItem Query)) :
    Scope.Named ({ fields := c.sourceFields source } :: scope) := by
  intro frame member f inFrame
  rcases mem_cons.mp member with rfl | outer
  · obtain ⟨item, _, inItem⟩ := mem_flatMap.mp inFrame
    exact (forall_mem_append.mpr ⟨relationFields_named item.first, joinsFields_named item.joins⟩) f inItem
  · exact named frame outer f inFrame

end Naming

def joinedFields (j : RelatedJoin) : List Field :=
  relabeled (some { name := .ofName j.label }) (c.tableFields [.ofName j.target])

/-- A field that some relationship column can bring into scope. -/
def IsJoined (f : Field) : Prop := ∃ j : RelatedJoin, j.Declared c.layer ∧ f ∈ c.joinedFields j

/-- A query in the condition of a relationship. -/
def InCondition (x : Query) : Prop := ∃ j : RelatedJoin, j.Declared c.layer ∧ x ∈ j.condition.queries

section Adding

variable {c}

theorem joinsFields_append (js js' : List (Join Query)) :
    c.joinsFields (js ++ js') = c.joinsFields js ++ c.joinsFields js' := by
  induction js with
  | nil => rw [nil_append, joinsFields, nil_append]
  | cons j js ih =>
    cases j
    rw [cons_append, joinsFields, joinsFields, ih, append_assoc]

theorem joinNames_append (reach : Reach) (js js' : List (Join Query)) :
    Join.namesAll reach (js ++ js') = Join.namesAll reach js ++ Join.namesAll reach js' := by
  induction js with
  | nil => rfl
  | cons j js ih =>
    cases j
    simp only [cons_append, Join.namesAll, ih, append_assoc]

theorem sublist_flatMap_modify {α β : Type} {f : α → α} {g : α → List β} (grows : ∀ a, (g a).Sublist (g (f a))) :
    ∀ (l : List α) (i : Nat), (l.flatMap g).Sublist ((l.modify i f).flatMap g)
  | [], i => by
    rw [modify_nil]
  | a :: l, 0 => by
    rw [modify_zero_cons, flatMap_cons, flatMap_cons]
    exact (grows a).append (.refl _)
  | a :: l, i + 1 => by
    rw [modify_succ_cons, flatMap_cons, flatMap_cons]
    exact (Sublist.refl _).append (sublist_flatMap_modify grows l i)

/-- A FROM clause with joins added: new fields, new names and new queries, all from the joins. -/
structure Extends (c : Context) (source source' : List (FromItem Query)) : Prop where
  fields : Frame.Grows c.IsJoined { fields := c.sourceFields source } { fields := c.sourceFields source' }
  names : ∀ reach, (source.flatMap (FromItem.names reach)).Sublist (source'.flatMap (FromItem.names reach))
  inner : ∀ reach, Correspond reach Eq c.InCondition (source.flatMap (FromItem.inner reach))
    (source'.flatMap (FromItem.inner reach))

theorem Extends.refl (source : List (FromItem Query)) : c.Extends source source :=
  ⟨.refl _ _, fun _ => .refl _, fun _ => .refl _ fun _ _ => rfl⟩

theorem Extends.trans {first second third : List (FromItem Query)} (earlier : c.Extends first second)
    (later : c.Extends second third) : c.Extends first third :=
  ⟨earlier.fields.trans later.fields, fun reach => (earlier.names reach).trans (later.names reach),
    fun reach => correspond_trans (earlier.inner reach) (later.inner reach)⟩

variable (c) in
theorem itemFields_appendJoin (j : RelatedJoin) (item : FromItem Query) :
    c.itemFields (appendJoin j.toJoin item) = c.itemFields item ++ c.joinedFields j := by
  simp only [itemFields, appendJoin, joinsFields_append, append_assoc]
  simp only [RelatedJoin.toJoin, joinsFields, relationFields, append_nil, joinedFields]

theorem addTo_extends {j : RelatedJoin} (declared : j.Declared c.layer) (s : Select Query) :
    c.Extends s.source (j.addTo s).source := by
  have fields := c.itemFields_appendJoin j
  have names : ∀ reach item, FromItem.names reach (appendJoin j.toJoin item) =
      item.names reach ++ Join.namesAll reach [j.toJoin] := by
    intro reach item
    simp only [FromItem.names, appendJoin, joinNames_append, append_assoc]
  unfold RelatedJoin.addTo
  split
  · exact .refl _
  · refine ⟨⟨?_, fun f member => ?_⟩, fun reach => ?_, fun reach => ?_⟩
    · exact sublist_flatMap_modify (fun item => fields item ▸ sublist_append_left _ _) s.source _
    · have tracked : ∀ i, Tracks Eq (fun _ => False) c.IsJoined (c.sourceFields s.source)
          (c.sourceFields (s.source.modify i (appendJoin j.toJoin))) :=
        tracks_flatMap_modify (fun _ => rfl) fields (fun f member => ⟨j, declared, member⟩) s.source
      refine ((tracked _).back f member).imp_left ?_
      rintro ⟨_, old, rfl⟩
      exact old
    · exact sublist_flatMap_modify (fun item => names reach item ▸ sublist_append_left _ _) s.source _
    · refine tracks_flatMap_modify (fun _ => rfl) (j.inner_appendJoin reach) (fun x member => ?_) s.source _
      exact ⟨j, declared, member⟩

theorem foldl_addTo_extends : ∀ {joins : List RelatedJoin}, (∀ j ∈ joins, j.Declared c.layer) →
    ∀ s : Select Query, c.Extends s.source (joins.foldl (fun s j => j.addTo s) s).source
  | [], _, s => .refl _
  | j :: joins, declared, s => by
    rw [foldl_cons]
    refine (addTo_extends (declared j mem_cons_self) s).trans ?_
    exact foldl_addTo_extends (fun j member => declared j (mem_cons_of_mem _ member)) (j.addTo s)

end Adding

end Context

end SemanticLayer
