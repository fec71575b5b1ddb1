import SemanticLayer.Compile.Joins
import SemanticLayer.Proofs.Scopes
import SemanticLayer.Proofs.Walks

/-! # Names in clauses

A walk over the clauses of a SELECT puts one name in the place of another, name by name, and one query in
the place of another. Qualifying the clauses of a SELECT is such a walk: a name stays, or it was bare and
is written with a relation that has such a field.
-/

namespace SemanticLayer

open Sql List
open Judgement (returns returns_bind)

variable {a b : Clauses}

namespace Sql

variable {m : Type → Type} [Monad m] [LawfulMonad m] {J : Judgement m} {w : Expr.Walk m Query Query}
  {renamed : Path → Path → Prop} {related : Query → Query → Prop} {parts : Path} {good : Path → Prop}

/-- An expression in the place of another one: its names and its queries correspond one by one. -/
structure Expr.Renamed (renamed : Path → Path → Prop) (related : Query → Query → Prop)
    (e e' : Expr Query) : Prop where
  names : Forall₂ renamed e.names e'.names
  queries : Forall₂ related e.queries e'.queries

/-- A walk that puts a name in the place of a name and relates nested queries. -/
structure Expr.Walk.Renames (J : Judgement m) (w : Expr.Walk m Query Query) (renamed : Path → Path → Prop)
    (related : Query → Query → Prop) : Prop where
  ident : ∀ name, J.holds (w.ident name) ((Expr.ident name).Renamed renamed related)
  path : ∀ parts, J.holds (w.path parts) ((Expr.path parts).Renamed renamed related)
  query : ∀ q, J.holds (w.query q) (related q)

theorem Expr.renamed_path {parts' : Path} (h : renamed parts parts') :
    (Expr.path parts).Renamed renamed related (.path parts') :=
  ⟨.cons h .nil, .nil⟩

theorem Expr.renamed_ident {name : Ident} (h : renamed [name] parts) :
    (Expr.ident name).Renamed renamed related (.path parts) :=
  ⟨.cons h .nil, .nil⟩

theorem Expr.Renamed.refl (same : ∀ name, renamed name name) (unchanged : ∀ q, related q q) (e : Expr Query) :
    e.Renamed renamed related e :=
  ⟨forall₂_same.mpr fun name _ => same name, forall₂_same.mpr fun q _ => unchanged q⟩

theorem forall₂_compose {α β γ : Type} {R : α → β → Prop} {S : β → γ → Prop} {T : α → γ → Prop}
    (compose : ∀ a b c, R a b → S b c → T a c) {l : List α} {l' : List β} {l'' : List γ}
    (first : Forall₂ R l l') (second : Forall₂ S l' l'') : Forall₂ T l l'' := by
  induction first generalizing l'' with
  | nil =>
    cases second
    exact .nil
  | cons here _ ih =>
    cases second with
    | cons here' rest' => exact .cons (compose _ _ _ here here') (ih rest')

theorem Expr.Renamed.comp {e e' e'' : Expr Query} (first : e.Renamed renamed Eq e')
    (second : e'.Renamed Eq related e'') : e.Renamed renamed related e'' := by
  refine ⟨forall₂_compose ?_ first.names second.names, forall₂_compose ?_ first.queries second.queries⟩
  · rintro _ _ _ changed rfl
    exact changed
  · rintro _ _ _ rfl changed
    exact changed

theorem Expr.Walk.Keeps.renames (keeps : w.Keeps J related) : w.Renames J Eq related where
  ident name := J.mono (keeps.ident name) fun e same => by
    rw [same]
    exact ⟨.cons rfl .nil, .nil⟩
  path parts := J.mono (keeps.path parts) fun e same => by
    rw [same]
    exact Expr.renamed_path rfl
  query := keeps.query

/-- An expression in the place of another one, with dotted names of a kind. -/
structure Expr.Rewritten (good : Path → Prop) (renamed : Path → Path → Prop) (related : Query → Query → Prop)
    (e e' : Expr Query) : Prop extends e.Renamed renamed related e' where
  paths : ∀ parts ∈ e'.paths, good parts

section Congruences

variable {g : Path → Path} {l l' : List (Expr Query)}

theorem Expr.Renamed.all (pairs : Forall₂ (Expr.Renamed renamed related) l l') :
    Forall₂ renamed (Expr.names.namesAll l) (Expr.names.namesAll l') ∧
      Forall₂ related (Expr.queries.queriesAll l) (Expr.queries.queriesAll l') := by
  induction pairs with
  | nil => exact ⟨.nil, .nil⟩
  | cons first _ ih => exact ⟨rel_append first.names ih.1, rel_append first.queries ih.2⟩

theorem Expr.Renamed.congruence : Expr.Congruence g related (Expr.Renamed renamed related) where
  literal _ := ⟨.nil, .nil⟩
  binary first second := ⟨rel_append first.names second.names, rel_append first.queries second.queries⟩
  nested h := ⟨h.names, h.queries⟩
  call pairs := ⟨(Renamed.all pairs).1, (Renamed.all pairs).2⟩
  form pairs := ⟨(Renamed.all pairs).1, (Renamed.all pairs).2⟩
  query h := ⟨.nil, .cons h .nil⟩

theorem Expr.Rewritten.paths_all (pairs : Forall₂ (Expr.Rewritten good renamed related) l l') :
    ∀ parts ∈ Expr.paths.pathsAll l', good parts := by
  induction pairs with
  | nil => exact forall_mem_nil _
  | cons first _ ih => exact forall_mem_append.mpr ⟨first.paths, ih⟩

theorem Expr.Rewritten.congruence : Expr.Congruence g related (Expr.Rewritten good renamed related) where
  literal value := ⟨Renamed.congruence.literal (g := g) value, forall_mem_nil _⟩
  binary first second := ⟨Renamed.congruence.binary (g := g) first.toRenamed second.toRenamed,
    forall_mem_append.mpr ⟨first.paths, second.paths⟩⟩
  nested h := ⟨Renamed.congruence.nested (g := g) h.toRenamed, h.paths⟩
  call pairs := ⟨Renamed.congruence.call (pairs.imp fun _ _ h => h.toRenamed), paths_all pairs⟩
  form pairs := ⟨Renamed.congruence.form (g := g) (pairs.imp fun _ _ h => h.toRenamed), paths_all pairs⟩
  query h := ⟨Renamed.congruence.query (g := g) h, forall_mem_nil _⟩

end Congruences

theorem Expr.walk_renamed (renames : w.Renames J renamed related) (e : Expr Query) :
    J.holds (e.walk w) (e.Renamed renamed related) :=
  Expr.walk_lifts Renamed.congruence renames.ident e (fun parts _ => renames.path parts) fun q _ => renames.query q

def SelectItem.exprs (reach : Reach) : SelectItem Query → List (Expr Query)
  | .wildcard options | .qualifiedWildcard _ options => reach.aside [options]
  | .expr e | .aliased e _ => [e]

def GroupBy.exprList : GroupBy Query → List (Expr Query)
  | .all _ => []
  | .exprs items _ => items

/-- The expressions of the clauses of a SELECT that see its FROM clause, within reach. -/
def Select.exprs (reach : Reach) (s : Select Query) : List (Expr Query) :=
  s.items.flatMap (SelectItem.exprs reach) ++ s.filter.toList ++ s.groupBy.exprList ++ s.having.toList ++
    s.qualify.toList

/-- The expressions of a SELECT that are kept as they are written. -/
def Select.otherExprs (s : Select Query) : List (Expr Query) :=
  [s.quantifier, s.views, s.distribution, s.windows, s.trailer]

end Sql

namespace Clauses

variable {m : Type → Type} [Monad m] [LawfulMonad m] {J : Judgement m} {w : Expr.Walk m Query Query}
  {renamed : Path → Path → Prop} {related : Query → Query → Prop}

def exprs (reach : Reach) (a : Clauses) : List (Expr Query) :=
  a.select.exprs reach ++ a.orderBy.map (·.expr)

/-- The names in clauses, within reach. Names inside nested queries do not count. -/
def names (reach : Reach) (a : Clauses) : List Path := (a.exprs reach).flatMap Expr.names

/-- The queries nested in clauses, within reach. -/
def queries (reach : Reach) (a : Clauses) : List Query := (a.exprs reach).flatMap Expr.queries

/-- Clauses over the same FROM clause, ordered by as many keys, with the same expressions that are kept as they
are written. -/
structure SameSource (a b : Clauses) : Prop where
  source : b.select.source = a.select.source
  others : b.select.otherExprs = a.select.otherExprs
  order : b.orderBy.length = a.orderBy.length

theorem SameSource.refl (a : Clauses) : a.SameSource a := ⟨rfl, rfl, rfl⟩

/-- Walked clauses: the FROM clause is the same, and the expressions correspond one by one. -/
structure Walked (renamed : Path → Path → Prop) (related : Query → Query → Prop) (a b : Clauses) : Prop where
  same : a.SameSource b
  exprs : ∀ reach, Forall₂ (Expr.Renamed renamed related) (a.exprs reach) (b.exprs reach)

theorem Walked.names (walked : a.Walked renamed related b) (reach : Reach) :
    Forall₂ renamed (a.names reach) (b.names reach) :=
  rel_flatMap (walked.exprs reach) fun _ _ h => h.names

theorem Walked.queries (walked : a.Walked renamed related b) (reach : Reach) :
    Forall₂ related (a.queries reach) (b.queries reach) :=
  rel_flatMap (walked.exprs reach) fun _ _ h => h.queries

section Lifting

/- What a walk does with each expression. -/
variable {R : Expr Query → Expr Query → Prop}

theorem walkItem_lifts {item : SelectItem Query} (each : ∀ e ∈ item.exprs .written, J.holds (e.walk w) (R e)) :
    J.holds (item.walk w) fun item' => aliasNames [item'] = aliasNames [item] ∧
      ∀ reach, Forall₂ R (item.exprs reach) (item'.exprs reach) := by
  cases item with
  | wildcard options | qualifiedWildcard _ options =>
    rw [SelectItem.walk]
    refine J.bind (each options mem_cons_self) fun _ => J.pure fun h => ⟨rfl, fun reach => ?_⟩
    cases reach with
    | visited => exact .nil
    | written => exact .cons h .nil
  | expr e | aliased e _ =>
    rw [SelectItem.walk]
    exact J.bind (each e mem_cons_self) fun _ => J.pure fun h => ⟨rfl, fun _ => .cons h .nil⟩

theorem walkOption_lifts {e : Option (Expr Query)} (each : ∀ x ∈ e.toList, J.holds (x.walk w) (R x)) :
    J.holds (walkOption w e) fun e' => Forall₂ R e.toList e'.toList := by
  cases e with
  | none => exact J.pure .nil
  | some e =>
    rw [walkOption]
    exact J.bind (each e (by simp)) fun _ => J.pure fun h => .cons h .nil

theorem walkGroupBy_lifts {groupBy : GroupBy Query} (each : ∀ e ∈ groupBy.exprList, J.holds (e.walk w) (R e)) :
    J.holds (groupBy.walk w) fun groupBy' => Forall₂ R groupBy.exprList groupBy'.exprList := by
  cases groupBy with
  | all => exact J.pure .nil
  | exprs items _ =>
    rw [GroupBy.walk]
    exact J.bind (Expr.walkAll_holds each) fun _ => J.pure id

theorem walkOrder_lifts {items : List (OrderItem Query)} (each : ∀ item ∈ items, J.holds (item.expr.walk w) (R item.expr)) :
    J.holds (items.mapM (OrderItem.walk w)) (Forall₂ (fun item item' => R item.expr item'.expr) items) :=
  J.mapM_mem fun item member => J.bind (each item member) fun _ => J.pure id

theorem aliasNames_eq {items items' : List (SelectItem Query)}
    (same : Forall₂ (fun item item' => aliasNames [item'] = aliasNames [item]) items items') :
    aliasNames items' = aliasNames items := by
  have split : ∀ (item : SelectItem Query) (rest : List (SelectItem Query)),
      aliasNames (item :: rest) = aliasNames [item] ++ aliasNames rest := fun item rest =>
    filterMap_append (l := [item])
  induction same with
  | nil => rfl
  | cons first _ ih => rw [split, first, ih, ← split]

theorem walkSelect_lifts {s : Select Query} (each : ∀ e ∈ s.exprs .written, J.holds (e.walk w) (R e)) :
    J.holds (walkSelect w s) fun s' => (s'.source = s.source ∧ s'.otherExprs = s.otherExprs) ∧
      aliasNames s'.items = aliasNames s.items ∧ ∀ reach, Forall₂ R (s.exprs reach) (s'.exprs reach) := by
  simp only [Select.exprs, forall_mem_append, forall_mem_flatMap] at each
  obtain ⟨⟨⟨⟨items, filter⟩, groupBy⟩, having⟩, qualify⟩ := each
  unfold walkSelect
  refine J.bind (J.mapM_mem fun item member => walkItem_lifts (items item member)) fun _ =>
    J.bind (walkOption_lifts filter) fun _ => J.bind (walkGroupBy_lifts groupBy) fun _ =>
    J.bind (walkOption_lifts having) fun _ => J.bind (walkOption_lifts qualify) fun _ => J.pure ?_
  intro qualify having groupBy filter items
  refine ⟨⟨rfl, rfl⟩, aliasNames_eq (items.imp fun _ _ h => h.1), fun reach => ?_⟩
  have listed := rel_flatMap items fun _ _ h => h.2 reach
  exact rel_append (rel_append (rel_append (rel_append listed filter) groupBy) having) qualify

end Lifting

theorem walkOrder_exprs (renames : w.Renames J renamed related) (items : List (OrderItem Query)) :
    J.holds (items.mapM (OrderItem.walk w)) fun items' =>
      Forall₂ (Expr.Renamed renamed related) (items.map (·.expr)) (items'.map (·.expr)) :=
  J.mono (walkOrder_lifts fun item _ => Expr.walk_renamed renames item.expr) fun _ pairs =>
    forall₂_map_left_iff.mpr (forall₂_map_right_iff.mpr pairs)

theorem walkSelect_exprs (renames : w.Renames J renamed related) (s : Select Query) :
    J.holds (walkSelect w s) fun s' => (s'.source = s.source ∧ s'.otherExprs = s.otherExprs) ∧
      ∀ reach, Forall₂ (Expr.Renamed renamed related) (s.exprs reach) (s'.exprs reach) :=
  J.mono (walkSelect_lifts fun e _ => Expr.walk_renamed renames e) fun _ h => ⟨h.1, h.2.2⟩

theorem walk_walked (renames : w.Renames J renamed related) (a : Clauses) :
    J.holds (a.walk w) (a.Walked renamed related) := by
  unfold walk
  refine J.bind (walkSelect_exprs renames a.select) fun select =>
    J.bind (walkOrder_exprs renames a.orderBy) fun orderBy => J.pure ?_
  rintro order ⟨⟨source, others⟩, selected⟩
  refine ⟨⟨source, others, ?_⟩, fun reach => rel_append (selected reach) order⟩
  simpa using order.length_eq.symm

end Clauses

section Qualifying

variable {name : String} {s s' scope : Scope} {name' : Path} {related : Query → Query → Prop}

/-- Every relation with fields in scope can be named. -/
def Scope.Named (s : Scope) : Prop := ∀ frame ∈ s, ∀ f ∈ frame.fields, f.relationName ≠ []

/-- A name stays, or it was bare and is written with a relation that has such a field. -/
def Scope.Qualifies (s : Scope) (name name' : Path) : Prop :=
  name' = name ∨ ∃ bare relation, name = [bare] ∧ name' = [relation, bare] ∧ s.Knows name'.values

theorem Field.answersTo_qualified {f : Field} (named : f.relationName ≠ [])
    (answers : f.answersTo [name] = true) : f.answersTo [f.qualifier, name] = true := by
  have last : [f.qualifier] <:+ f.relationName := by
    refine ⟨f.relationName.dropLast, ?_⟩
    unfold qualifier DottedName.suffix
    rw [getLast?_eq_some_getLast named]
    exact dropLast_append_getLast named
  simp only [answersTo, DottedName.suffix, DottedName.qualifier?, getLast?_singleton, getLast?_cons_cons,
    Option.getD_some, length_cons, Bool.and_eq_true, beq_iff_eq] at answers ⊢
  exact ⟨answers.1, by simpa using last⟩

theorem Scope.Qualifies.trans {name name'' : Path} (first : s.Qualifies name name')
    (second : s.Qualifies name' name'') : s.Qualifies name name'' := by
  rcases first with rfl | ⟨bare, relation, rfl, rfl, known⟩
  · exact second
  · -- What has been qualified is not bare any more.
    rcases second with rfl | ⟨_, _, single, _⟩
    · exact .inr ⟨bare, relation, rfl, rfl, known⟩
    · cases single

theorem Scope.Qualifies.mono (more : ∀ name, s.Knows name → s'.Knows name) {name : Path}
    (qualifies : s.Qualifies name name') : s'.Qualifies name name' := by
  rcases qualifies with same | ⟨bare, relation, single, double, known⟩
  · exact .inl same
  · exact .inr ⟨bare, relation, single, double, more _ known⟩

/-- A name that is not to be qualified: an output, or one that the nearer scope may know. -/
def Hides (nearer : Option Scope) (outputs : List String) (name : Ident) : Prop :=
  name.value ∈ outputs ∨ ∃ s, nearer = some s ∧ s.resolve [name.value] ≠ .ok none

/-- What becomes of a bare name: it stays if it is hidden or means nothing, and gets its relation otherwise. -/
theorem qualifyWalk_ident (scope : Scope) (nearer : Option Scope) (outputs : List String) (name : Ident) :
    returns.holds ((qualifyWalk scope nearer outputs).ident name) fun e =>
      (e = .ident name ∧ (Hides nearer outputs name ∨ scope.resolve [name.value] = .ok none)) ∨
        ∃ field, scope.resolve [name.value] = .ok (some field) ∧ e = .path [.ofName field.qualifier, name] := by
  have resolved : returns.holds (scope.resolve [name.value]) fun found =>
      scope.resolve [name.value] = .ok found := fun _ meaning => meaning
  unfold qualifyWalk
  dsimp only
  split
  · rename_i output
    exact returns.pure (.inl ⟨rfl, .inl (.inl (by simpa using output))⟩)
  · refine returns.cond (fun known => ?_) fun _ => returns_bind resolved fun found meaning => ?_
    · refine returns.pure (.inl ⟨rfl, .inl (.inr ?_)⟩)
      cases nearer with
      | none => cases known
      | some s =>
        refine ⟨s, rfl, fun unknown => ?_⟩
        dsimp only at known
        rw [unknown] at known
        cases known
    · cases found with
      | none => exact returns.pure (.inl ⟨rfl, .inr meaning⟩)
      | some field => exact returns.pure (.inr ⟨field, meaning, rfl⟩)

theorem Scope.Named.knows_qualified (named : scope.Named) {field : Field}
    (meaning : scope.resolve [name] = .ok (some field)) : scope.Knows [field.qualifier, name] := by
  obtain ⟨answers, frame, member, inFrame⟩ := Scope.resolve_eq_some meaning
  exact ⟨frame, member, field, inFrame, Field.answersTo_qualified (named frame member field inFrame) answers⟩

theorem qualifyWalk_renames (named : scope.Named) (nearer : Option Scope) (outputs : List String) :
    (qualifyWalk scope nearer outputs).Renames returns scope.Qualifies Eq where
  ident name := by
    refine returns.mono (qualifyWalk_ident scope nearer outputs name) ?_
    rintro e (⟨rfl, _⟩ | ⟨field, meaning, rfl⟩)
    · exact ⟨.cons (.inl rfl) .nil, .nil⟩
    · refine Expr.renamed_ident (.inr ⟨name, .ofName field.qualifier, rfl, rfl, ?_⟩)
      simpa [Path.values] using named.knows_qualified meaning
  path parts := returns.pure (Expr.renamed_path (.inl rfl))
  query q := returns.pure rfl

/-- Names are qualified one by one. Of the clauses that no analysis visits some may be lost. -/
structure Clauses.Qualified (s : Scope) (a b : Clauses) : Prop where
  names : Forall₂ s.Qualifies (a.names .visited) (b.names .visited)
  back : ∀ name' ∈ b.names .written, ∃ name ∈ a.names .written, s.Qualifies name name'

theorem Clauses.Qualified.refl (s : Scope) (a : Clauses) : a.Qualified s a :=
  ⟨forall₂_same.mpr fun _ _ => .inl rfl, fun name member => ⟨name, member, .inl rfl⟩⟩

theorem Clauses.Qualified.trans {c : Clauses} (first : a.Qualified s b) (second : b.Qualified s c) :
    a.Qualified s c := by
  refine ⟨forall₂_compose (fun _ _ _ => .trans) first.names second.names, fun name'' member => ?_⟩
  obtain ⟨name', member', later⟩ := second.back name'' member
  obtain ⟨name, member, earlier⟩ := first.back name' member'
  exact ⟨name, member, earlier.trans later⟩

theorem Clauses.Qualified.mono (more : ∀ name, s.Knows name → s'.Knows name)
    (qualified : a.Qualified s b) : a.Qualified s' b := by
  refine ⟨qualified.names.imp fun _ _ => .mono more, fun name' member' => ?_⟩
  obtain ⟨name, member, qualifies⟩ := qualified.back name' member'
  exact ⟨name, member, qualifies.mono more⟩

theorem Clauses.Walked.qualified (walked : a.Walked s.Qualifies related b) : a.Qualified s b :=
  ⟨walked.names .visited, forall₂_exists (walked.names .written).flip⟩

/-- Writing a wildcard out changes only expressions that no analysis visits, and invents none. -/
theorem spreadWildcard_exprs (relations : List String) : ∀ items : List (SelectItem Query),
    (spreadWildcard relations items).flatMap (SelectItem.exprs .visited) = items.flatMap (SelectItem.exprs .visited) ∧
      ∀ e ∈ (spreadWildcard relations items).flatMap (SelectItem.exprs .written),
        e ∈ items.flatMap (SelectItem.exprs .written)
  | [] => ⟨rfl, fun _ => id⟩
  | .wildcard options :: rest => by
    rw [spreadWildcard, flatMap_append, flatMap_append]
    constructor
    · have none : (relations.map fun name => SelectItem.qualifiedWildcard [.ofName name] options).flatMap
          (SelectItem.exprs .visited) = [] := by
        rw [flatMap_map]
        exact flatMap_eq_nil_iff.mpr fun _ _ => rfl
      rw [none]
      rfl
    · intro e member
      rcases mem_append.mp member with member | member
      · obtain ⟨item, spread, member⟩ := mem_flatMap.mp member
        obtain ⟨name, _, rfl⟩ := mem_map.mp spread
        exact mem_append_left _ member
      · exact mem_append_right _ member
  | .qualifiedWildcard _ _ :: rest | .expr _ :: rest | .aliased _ _ :: rest => by
    obtain ⟨same, back⟩ := spreadWildcard_exprs relations rest
    refine ⟨congrArg (_ ++ ·) same, fun e member => ?_⟩
    rcases mem_append.mp member with member | member
    · exact mem_append_left _ member
    · exact mem_append_right _ (back e member)

def Clauses.spread (relations : List String) (a : Clauses) : Clauses :=
  { a with select := { a.select with items := spreadWildcard relations a.select.items } }

theorem Clauses.spread_exprs (relations : List String) (a : Clauses) :
    (a.spread relations).exprs .visited = a.exprs .visited ∧
      ∀ e ∈ (a.spread relations).exprs .written, e ∈ a.exprs .written := by
  obtain ⟨same, back⟩ := spreadWildcard_exprs relations a.select.items
  constructor
  · simp only [exprs, spread, Select.exprs, same]
  · intro e member
    simp only [exprs, spread, Select.exprs, mem_append] at member ⊢
    exact member.imp_left (Or.imp_left (Or.imp_left (Or.imp_left (Or.imp_left (back e)))))

theorem Clauses.Walked.spread {renamed : Path → Path → Prop}
    (walked : a.Walked renamed related b) (relations : List String) :
    Forall₂ renamed (a.names .visited) ((b.spread relations).names .visited) ∧
      (∀ name' ∈ (b.spread relations).names .written, ∃ name ∈ a.names .written, renamed name name') ∧
      ∀ reach, Tracks related (fun _ => reach = .written) (fun _ => False)
        (a.queries reach) ((b.spread relations).queries reach) := by
  obtain ⟨same, back⟩ := b.spread_exprs relations
  refine ⟨?_, ?_, ?_⟩
  · rw [Clauses.names, Clauses.names, same]
    exact walked.names .visited
  · intro name' member
    obtain ⟨e, member, named⟩ := mem_flatMap.mp member
    exact forall₂_exists (walked.names .written).flip name' (mem_flatMap.mpr ⟨e, back e member, named⟩)
  · intro reach
    cases reach with
    | visited =>
      rw [Clauses.queries, Clauses.queries, same]
      exact .of_pairs (walked.queries .visited)
    | written =>
      refine ⟨fun _ _ => .inr rfl, fun x member => .inl ?_⟩
      obtain ⟨e, member, inside⟩ := mem_flatMap.mp member
      exact forall₂_exists (walked.queries .written).flip x (mem_flatMap.mpr ⟨e, back e member, inside⟩)

/-- Qualifying clauses keeps the FROM clause, qualifies the names, and qualifies what nested queries read of the
scope. -/
theorem Context.qualify_qualified (c : Context) (named : scope.Named) (same : ∀ q, related q q)
    (nested : ∀ q, returns.holds (c.qualifyCorrelated scope q) (related q)) (a : Clauses) :
    returns.holds (c.qualify scope a) fun b => a.SameSource b ∧ a.Qualified scope b ∧
      ∀ reach, Tracks related (fun _ => reach = .written) (fun _ => False) (a.queries reach) (b.queries reach) := by
  have renames := qualifyWalk_renames named none
  have correlated : Expr.Walk.Renames returns
      { Expr.Walk.keep (Except CompileError) Query with query := c.qualifyCorrelated scope } Eq related :=
    (Expr.Walk.keep_keeps nested).renames
  unfold Context.qualify
  refine returns_bind (Clauses.walkSelect_exprs (renames []) a.select) fun select first =>
    returns_bind (Clauses.walkOrder_exprs (renames _) a.orderBy) fun orderBy ordered =>
    returns_bind (Clauses.walkSelect_exprs correlated select) fun select' second =>
    returns.pure ?_
  obtain ⟨⟨source, others⟩, qualified⟩ := first
  obtain ⟨⟨source', others'⟩, kept⟩ := second
  -- The queries in ORDER BY are left as they are.
  have walked : a.Walked scope.Qualifies related ⟨select', orderBy⟩ := by
    refine ⟨⟨source'.trans source, others'.trans others, ?_⟩, fun reach => rel_append ?_ ?_⟩
    · simpa using ordered.length_eq.symm
    · exact forall₂_compose (fun _ _ _ => .comp) (qualified reach) (kept reach)
    · refine ordered.imp fun _ _ h => ⟨h.names, h.queries.imp ?_⟩
      rintro x _ rfl
      exact same x
  obtain ⟨names, back, queries⟩ := walked.spread (select'.source.flatMap relationNames)
  exact ⟨⟨walked.same.source, walked.same.others, walked.same.order⟩, ⟨names, back⟩, queries⟩

end Qualifying

end SemanticLayer
