import SemanticLayer.Proofs.Fields
import SemanticLayer.Proofs.TableNames

/-! # Which queries are accepted

An analysis fails either because of a construct that it does not accept anywhere, or because a name in an
expression is ambiguous. The constructs are a matter of the query alone: `Context.Accepts` says of one level
of a query that it has none of them. Every level that an analysis visits is accepted. A name is clear if it is not
ambiguous, and an expression of clear names can be read.
-/

namespace SemanticLayer

open Sql List

variable {q : Query}

/-- A query with the queries nested in it, within reach. -/
inductive Sql.Query.Contains (reach : Reach) : Query → Query → Prop
  | self {q : Query} : Contains reach q q
  | nested {q x y : Query} : x ∈ q.inner reach → Contains reach x y → Contains reach q y
  | entry {q y : Query} {cte : Cte Query} : cte ∈ q.ctes → Contains reach cte.query y → Contains reach q y

theorem Sql.Query.contains_mapTables {reach : Reach} (f : Path → Path) {y : Query} :
    (q.mapTables f).Contains reach y ↔ ∃ x, q.Contains reach x ∧ y = x.mapTables f := by
  constructor
  · intro contained
    generalize renamed : q.mapTables f = q' at contained
    induction contained generalizing q with
    | self => exact ⟨q, .self, renamed.symm⟩
    | nested member _ ih =>
      subst renamed
      rw [Query.inner_mapTables] at member
      obtain ⟨x, member, same⟩ := mem_map.mp member
      obtain ⟨y, contained, rfl⟩ := ih same
      exact ⟨y, .nested member contained, rfl⟩
    | entry member _ ih =>
      subst renamed
      rw [Query.ctes_mapTables] at member
      obtain ⟨cte, original, rfl⟩ := mem_map.mp member
      obtain ⟨y, contained, rfl⟩ := ih rfl
      exact ⟨y, .entry original contained, rfl⟩
  · rintro ⟨x, contained, rfl⟩
    induction contained with
    | self => exact .self
    | nested member _ ih =>
      refine .nested ?_ ih
      rw [Query.inner_mapTables]
      exact mem_map_of_mem member
    | @entry q _ cte member _ ih =>
      have renamed : { cte with query := cte.query.mapTables f } ∈ (q.mapTables f).ctes := by
        rw [Query.ctes_mapTables]
        exact mem_map_of_mem member
      exact .entry renamed ih

namespace Context

variable (c : Context)

section Decidability

mutual

def decideRelation : (r : Relation Query) → Decidable (c.AcceptsRelation r)
  | .table name none _ _ _ => decidable_of_iff (∃ table, c.session.tableName name = .ok table) (by rw [AcceptsRelation])
  | .table name (some args) _ _ _ =>
    decidable_of_iff (Rollup.isName name = true ∧ ∃ r, Rollup.resolve c.layer args = .ok r) (by rw [AcceptsRelation])
  | .nested first joins _ =>
    have := decideRelation first
    have := decideJoins joins
    decidable_of_iff (c.AcceptsRelation first ∧ c.AcceptsJoins joins) (by rw [AcceptsRelation])
  | .derived _ _ _ | .unnest _ _ => decidable_of_iff True (by rw [AcceptsRelation])
  | .pivot _ _ | .other _ => decidable_of_iff False (by rw [AcceptsRelation])

def decideJoins : (js : List (Join Query)) → Decidable (c.AcceptsJoins js)
  | [] => decidable_of_iff True (by rw [AcceptsJoins])
  | .mk _ _ relation _ :: rest =>
    have := decideRelation relation
    have := decideJoins rest
    decidable_of_iff (c.AcceptsRelation relation ∧ c.AcceptsJoins rest) (by rw [AcceptsJoins])

end

instance (source : List (FromItem Query)) : Decidable (c.AcceptsSource source) :=
  have := c.decideRelation
  have := c.decideJoins
  inferInstanceAs (Decidable (∀ item ∈ source, c.AcceptsRelation item.first ∧ c.AcceptsJoins item.joins))

def decideBody : (b : Body Query) → Decidable (c.AcceptsBody b)
  | .select s => inferInstanceAs (Decidable (c.AcceptsSource s.source))
  | .setOp _ left right =>
    have := decideBody left
    have := decideBody right
    inferInstanceAs (Decidable (c.AcceptsBody left ∧ c.AcceptsBody right))
  | .query _ | .values _ _ => .isTrue trivial
  | .table _ | .write _ => .isFalse id

instance (q : Query) : Decidable (c.Accepts q) :=
  have := c.decideBody
  inferInstanceAs (Decidable (c.AcceptsBody q.body ∧ (With.names q).Nodup))

end Decidability

section Visited

variable {c} {x : Query}

/-- Every level of a query whose sites can be visited is accepted. -/
theorem accepts_of_contains (contained : q.Contains .visited x) : ∀ (n : Nat) (scope : Scope),
    q.height ≤ n → c.PassAll (c.sitesAt n q scope) → c.Accepts x := by
  induction contained with
  | @self q =>
    rintro (_ | n) scope low passes
    · exact absurd low (Nat.not_le.mpr q.height_pos)
    · exact accepts_of_sitesAt passes
  | @nested q _ _ member _ ih =>
    rintro (_ | n) scope low passes
    · exact absurd low (Nat.not_le.mpr q.height_pos)
    · have lower := Query.height_lt_inner member
      obtain ⟨s, _, inside⟩ := sitesAt_of_inner passes member
      exact ih n s (by omega) fun site listed => passes site (inside listed)
  | @entry q _ cte member _ ih =>
    rintro (_ | n) scope low passes
    · exact absurd low (Nat.not_le.mpr q.height_pos)
    · have lower := Query.height_lt_ctes member
      obtain ⟨front, back, split⟩ := append_of_mem member
      obtain ⟨s, _, inside⟩ := sitesAt_of_entry (c := c) n scope split
      exact ih n s (by omega) fun site listed => passes site (inside listed)

theorem accepts_of_analyze {a : Analysis} (analyzed : c.analyze q = .ok a)
    (contained : q.Contains .visited x) : c.Accepts x :=
  accepts_of_contains contained q.height [] (Nat.le_refl _) (analyze_eq_ok.mp analyzed).1

/-- A FROM clause is accepted, with the queries in it. -/
def AcceptsWithin (c : Context) (source : List (FromItem Query)) : Prop :=
  c.AcceptsSource source ∧ ∀ x ∈ source.flatMap (FromItem.inner .visited), ∀ y, x.Contains .visited y → c.Accepts y

theorem accepts_of_sourceScope {s : Select Query} {parent scope : Scope}
    (returned : c.sourceScope s parent = .ok scope) : c.AcceptsWithin s.source := by
  obtain ⟨passes, _⟩ := sourceScope_eq_ok.mp returned
  obtain ⟨accepted, reports⟩ := sourceSites_report (fun x scope => sitesAt_calls x.height x scope) s.source passes
  refine ⟨accepted, fun x member y contained => ?_⟩
  obtain ⟨s, _, inside⟩ := reports.nested x member
  exact accepts_of_contains contained x.height s (Nat.le_refl _) fun site listed => passes site (inside listed)

end Visited

end Context

namespace Scope

variable {name : DottedName} {e : Expr Query}

/-- A name in an expression can be looked up: it is not ambiguous. -/
def Clear (s : Scope) (name : DottedName) : Prop := ∃ r, s.reference name = .ok r

variable {s : Scope}

theorem Clear.resolve (clear : s.Clear name) : ∃ found, s.resolve name = .ok found := by
  obtain ⟨r, meaning⟩ := clear
  obtain ⟨found, whole, _⟩ := bind_eq_ok_iff.mp meaning
  exact ⟨found, whole⟩

theorem clear_iff : s.Clear name ↔ ∃ found, s.resolveReference name = .ok found := by
  rw [Clear, resolveReference_eq]
  cases s.reference name with
  | error | ok => simp [Functor.map, Except.map]

theorem fieldsOf_eq_ok : (∃ fields, s.fieldsOf e = .ok fields) ↔ ∀ name ∈ e.names, s.Clear name.values := by
  have all : ∀ names : List Path, (∃ found, names.mapM (fun name => s.resolveReference name.values) = .ok found) ↔
      ∀ name ∈ names, s.Clear name.values := by
    intro names
    induction names with
    | nil => exact ⟨fun _ => forall_mem_nil _, fun _ => ⟨[], rfl⟩⟩
    | cons name names ih =>
      rw [forall_mem_cons, ← ih, clear_iff, mapM_cons]
      constructor
      · rintro ⟨_, meanings⟩
        obtain ⟨found, meaning, rest⟩ := bind_eq_ok_iff.mp meanings
        obtain ⟨others, meanings, _⟩ := bind_eq_ok_iff.mp rest
        exact ⟨⟨found, meaning⟩, others, meanings⟩
      · rintro ⟨⟨found, meaning⟩, others, meanings⟩
        rw [meaning, meanings]
        exact ⟨_, rfl⟩
  rw [← all, fieldsOf]
  cases e.names.mapM fun name => s.resolveReference name.values with
  | error => exact ⟨nofun, nofun⟩
  | ok found => exact ⟨fun _ => ⟨found, rfl⟩, fun _ => ⟨_, rfl⟩⟩

theorem mem_names_of_columnName (named : columnName? e = some name) : ∃ path ∈ e.names, path.values = name := by
  cases e with
  | ident | path =>
    cases named
    exact ⟨_, mem_singleton_self _, rfl⟩
  | literal | binary | nested | call | form | query => cases named

theorem predicatesOf_ok (clear : ∀ name ∈ e.names, s.Clear name.values) :
    ∃ predicates, Context.predicatesOf s e = .ok predicates := by
  fun_induction Context.predicatesOf s e with
  | case1 left right first second =>
    obtain ⟨inLeft, inRight⟩ := forall_mem_append.mp clear
    obtain ⟨_, leftOk⟩ := first inLeft
    obtain ⟨_, rightOk⟩ := second inRight
    rw [leftOk, rightOk]
    exact ⟨_, rfl⟩
  | case2 inner ih => exact ih clear
  | case3 => exact ⟨_, rfl⟩
  | case4 => exact ⟨_, rfl⟩
  | case5 => exact ⟨_, rfl⟩
  | case6 operator left right other compares column value compared name named =>
    have side : column = left ∨ column = right := by
      unfold Context.comparison? at compared
      split at compared <;> simp_all
    obtain ⟨path, member, rfl⟩ := mem_names_of_columnName named
    have read : path ∈ (Expr.binary operator left right).names := by
      rcases side with rfl | rfl
      · exact mem_append_left _ member
      · exact mem_append_right _ member
    obtain ⟨found, meaning⟩ := clear_iff.mp (clear path read)
    rw [meaning]
    cases found with
    | none => exact ⟨_, rfl⟩
    | some field => exact ⟨_, (apply_ite Except.ok _ _ _).symm⟩
  | case7 => exact ⟨_, rfl⟩

end Scope

end SemanticLayer
