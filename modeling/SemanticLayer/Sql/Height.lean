import SemanticLayer.Sql.Query

/-! # The height of a query

The number of queries nested in each other, with the query itself. A query is larger than every
query nested in it, so the height is well defined, and a nested query is strictly lower.
-/

namespace SemanticLayer.Sql

section Smaller

variable {Q : Type} [SizeOf Q]

mutual

theorem Expr.sizeOf_lt {q : Q} : ∀ {e : Expr Q}, q ∈ e.queries → sizeOf q < sizeOf e
  | .ident _, h | .path _, h | .literal _, h => by simp [Expr.queries] at h
  | .binary _ left right, h => by
    simp only [Expr.queries, List.mem_append] at h
    rcases h with h | h
    · have := sizeOf_lt h; simp; omega
    · have := sizeOf_lt h; simp; omega
  | .nested inner, h => by
    have := sizeOf_lt (e := inner) h; simp; omega
  | .call _ _ parts, h => by
    have := sizeOf_lt_all (l := parts) h; simp; omega
  | .form _ parts, h => by
    have := sizeOf_lt_all (l := parts) h; simp; omega
  | .query q', h => by
    simp only [Expr.queries, List.mem_singleton] at h
    subst h; simp

theorem Expr.sizeOf_lt_all {q : Q} :
    ∀ {l : List (Expr Q)}, q ∈ Expr.queries.queriesAll l → sizeOf q < sizeOf l
  | [], h => by simp [Expr.queries.queriesAll] at h
  | e :: es, h => by
    simp only [Expr.queries.queriesAll, List.mem_append] at h
    rcases h with h | h
    · have := sizeOf_lt h; simp; omega
    · have := sizeOf_lt_all h; simp; omega

end

theorem sizeOf_lt_flatMap {α : Type} [SizeOf α] {f : α → List Q}
    (smaller : ∀ {a q}, q ∈ f a → sizeOf q < sizeOf a) {l : List α} {q : Q}
    (h : q ∈ l.flatMap f) : sizeOf q < sizeOf l := by
  obtain ⟨a, ha, hq⟩ := List.mem_flatMap.mp h
  have := List.sizeOf_lt_of_mem ha
  have := smaller hq
  omega

theorem JoinKind.sizeOf_lt {q : Q} {k : JoinKind Q} (h : q ∈ k.queries) : sizeOf q < sizeOf k := by
  cases k with
  | asOf condition => have := Expr.sizeOf_lt (e := condition) h; simp; omega
  | plain | cross | crossApply | outerApply => simp [JoinKind.queries] at h

theorem JoinConstraint.sizeOf_lt {q : Q} {c : JoinConstraint Q} (h : q ∈ c.queries) :
    sizeOf q < sizeOf c := by
  cases c with
  | condition expr => have := Expr.sizeOf_lt (e := expr) h; simp; omega
  | columns | natural | none => simp [JoinConstraint.queries] at h

mutual

theorem Relation.sizeOf_lt {q : Q} : ∀ {r : Relation Q}, q ∈ r.queries → sizeOf q < sizeOf r
  | .table _ none _ _ hints, h => by
    have := Expr.sizeOf_lt (e := hints) h; simp; omega
  | .table _ (some args) _ _ hints, h => by
    simp only [Relation.queries, List.mem_append] at h
    rcases h with h | h
    · have := Expr.sizeOf_lt_all h; simp; omega
    · have := Expr.sizeOf_lt h; simp; omega
  | .derived _ query _, h => by
    simp only [Relation.queries, List.mem_singleton] at h
    subst h; simp; omega
  | .nested first joins _, h => by
    simp only [Relation.queries, List.mem_append] at h
    rcases h with h | h
    · have := Relation.sizeOf_lt h; simp; omega
    · have := Join.sizeOf_lt_all h; simp; omega
  | .unnest arrays _, h => by
    have := Expr.sizeOf_lt_all (l := arrays) h; simp; omega
  | .pivot source turn, h => by
    simp only [Relation.queries, List.mem_append] at h
    rcases h with h | h
    · have := Relation.sizeOf_lt h; simp; omega
    · have := Expr.sizeOf_lt h; simp; omega
  | .other construct, h => by
    have := Expr.sizeOf_lt (e := construct) h; simp; omega

theorem Join.sizeOf_lt_all {q : Q} : ∀ {js : List (Join Q)}, q ∈ Join.queriesAll js → sizeOf q < sizeOf js
  | [], h => by simp [Join.queriesAll] at h
  | .mk _ kind relation constraint :: js, h => by
    simp only [Join.queriesAll, Join.queries, List.mem_append] at h
    rcases h with ((h | h) | h) | h
    · have := Relation.sizeOf_lt h; simp; omega
    · have := JoinKind.sizeOf_lt h; simp; omega
    · have := JoinConstraint.sizeOf_lt h; simp; omega
    · have := Join.sizeOf_lt_all h; simp; omega

end

theorem FromItem.sizeOf_lt {q : Q} {i : FromItem Q} (h : q ∈ i.queries) : sizeOf q < sizeOf i := by
  cases i with
  | mk first joins =>
    simp only [FromItem.queries, List.mem_append] at h
    rcases h with h | h
    · have := Relation.sizeOf_lt h; simp; omega
    · have := Join.sizeOf_lt_all h; simp; omega

theorem SelectItem.sizeOf_lt {q : Q} {i : SelectItem Q} (h : q ∈ i.queries) : sizeOf q < sizeOf i := by
  cases i with
  | wildcard e => have := Expr.sizeOf_lt (e := e) h; simp; omega
  | qualifiedWildcard _ e => have := Expr.sizeOf_lt (e := e) h; simp; omega
  | expr e => have := Expr.sizeOf_lt (e := e) h; simp; omega
  | aliased e _ => have := Expr.sizeOf_lt (e := e) h; simp; omega

theorem GroupBy.sizeOf_lt {q : Q} {g : GroupBy Q} (h : q ∈ g.queries) : sizeOf q < sizeOf g := by
  cases g with
  | all => simp [GroupBy.queries] at h
  | exprs items modifiers =>
    have := sizeOf_lt_flatMap Expr.sizeOf_lt (l := items) h; simp; omega

theorem sizeOf_lt_option {q : Q} {e : Option (Expr Q)} (h : q ∈ queriesOf e) : sizeOf q < sizeOf e := by
  cases e with
  | none => simp [queriesOf] at h
  | some e => have := Expr.sizeOf_lt (e := e) h; simp; omega

theorem Select.sizeOf_lt {q : Q} {s : Select Q} (h : q ∈ s.queries) : sizeOf q < sizeOf s := by
  cases s with
  | mk quantifier items into source views filter groupBy distribution having windows qualify trailer =>
    simp only [Select.queries, List.mem_append] at h
    simp only [Select.mk.sizeOf_spec]
    rcases h with (((((((((h | h) | h) | h) | h) | h) | h) | h) | h) | h) | h
    · have := Expr.sizeOf_lt h; omega
    · have := sizeOf_lt_flatMap SelectItem.sizeOf_lt h; omega
    · have := sizeOf_lt_flatMap FromItem.sizeOf_lt h; omega
    · have := Expr.sizeOf_lt h; omega
    · have := sizeOf_lt_option h; omega
    · have := GroupBy.sizeOf_lt h; omega
    · have := Expr.sizeOf_lt h; omega
    · have := sizeOf_lt_option h; omega
    · have := Expr.sizeOf_lt h; omega
    · have := sizeOf_lt_option h; omega
    · have := Expr.sizeOf_lt h; omega

theorem Write.sizeOf_lt {q : Q} {w : Write Q} (h : q ∈ w.queries) : sizeOf q < sizeOf w := by
  cases w with
  | mk start target change source trailer =>
    simp only [Write.queries, List.mem_append] at h
    simp only [Write.mk.sizeOf_spec]
    rcases h with ((h | h) | h) | h
    · have := FromItem.sizeOf_lt h; omega
    · have := Expr.sizeOf_lt h; omega
    · cases source with
      | none => simp at h
      | some item =>
        have := FromItem.sizeOf_lt (i := item) (by simpa using h)
        simp only [Option.some.sizeOf_spec]; omega
    · have := Expr.sizeOf_lt h; omega

theorem Body.sizeOf_lt {q : Q} : ∀ {b : Body Q}, q ∈ b.queries → sizeOf q < sizeOf b
  | .select s, h => by have := Select.sizeOf_lt (s := s) h; simp; omega
  | .query q', h => by
    simp only [Body.queries, List.mem_singleton] at h
    subst h; simp
  | .setOp _ left right, h => by
    simp only [Body.queries, List.mem_append] at h
    rcases h with h | h
    · have := sizeOf_lt h; simp; omega
    · have := sizeOf_lt h; simp; omega
  | .values rows _, h => by
    have := sizeOf_lt_flatMap (l := rows)
      (fun h => sizeOf_lt_flatMap Expr.sizeOf_lt h) h
    simp; omega
  | .table _, h => by simp [Body.queries] at h
  | .write w, h => by have := Write.sizeOf_lt (w := w) h; simp; omega

end Smaller

theorem Query.sizeOf_lt {q q' : Query} (h : q' ∈ q.queries) : sizeOf q' < sizeOf q := by
  cases q with
  | mk recursive ctes body orderBy limit trailer =>
    simp only [Query.queries, List.mem_append] at h
    simp only [Query.mk.sizeOf_spec]
    rcases h with (((h | h) | h) | h) | h
    · obtain ⟨cte, hc, rfl⟩ := List.mem_map.mp h
      have := List.sizeOf_lt_of_mem hc
      cases cte; simp_all; omega
    · have := Body.sizeOf_lt h; omega
    · have := sizeOf_lt_flatMap (f := fun item : OrderItem Query => item.expr.queries)
        (fun {a q} h => by
          cases a with
          | mk expr ascending nullsFirst =>
            have := Expr.sizeOf_lt (e := expr) h; simp; omega) h
      omega
    · have := sizeOf_lt_option h; omega
    · have := Expr.sizeOf_lt h; omega

def largest (ns : List Nat) : Nat := ns.foldr max 0

theorem le_largest {n : Nat} {ns : List Nat} (h : n ∈ ns) : n ≤ largest ns := by
  induction ns with
  | nil => simp at h
  | cons m ns ih =>
    rcases List.mem_cons.mp h with h | h
    · subst h; simp only [largest, List.foldr_cons]; omega
    · have := ih h; simp only [largest, List.foldr_cons] at *; omega

/-- How many queries are nested in each other, with the query itself. -/
def Query.height (q : Query) : Nat :=
  1 + largest (q.queries.attach.map fun ⟨q', _⟩ => q'.height)
termination_by sizeOf q
decreasing_by exact Query.sizeOf_lt ‹_›

theorem Query.height_lt_queries {q q' : Query} (h : q' ∈ q.queries) : q'.height < q.height := by
  rw [Query.height.eq_def q]
  have : q'.height ∈ q.queries.attach.map fun ⟨q', _⟩ => q'.height :=
    List.mem_map.mpr ⟨⟨q', h⟩, List.mem_attach _ _, rfl⟩
  have := le_largest this
  omega

end SemanticLayer.Sql
