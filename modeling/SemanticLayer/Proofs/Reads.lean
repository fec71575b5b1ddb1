import SemanticLayer.Compile.With

/-! # What a query reads

The tables and table functions that a query names in its FROM clauses, with the WITH names that are
visible at each place. Reading is followed into the clauses that an analysis visits, or into everything
that is written.
-/

namespace SemanticLayer.Sql

open List

variable {reach : Reach} {q x : Query} {cte : Cte Query} {outer bound : List String} {mention : Mention} {part : String}

/-- What a relation of a FROM clause names. -/
inductive Mention where
  | table (name : Path)
  /-- A table function; of its arguments the names count. -/
  | call (name : Path) (args : List (Option String))
  deriving DecidableEq

def Mention.name : Mention → Path
  | .table name | .call name _ => name

@[simp] theorem Ident.ofName_value (name : String) : (Ident.ofName name).value = name := by
  unfold Ident.ofName
  split <;> rfl

/-- How far a query is looked into. -/
inductive Reach where
  /-- Only the clauses that an analysis visits. -/
  | visited
  /-- Everything that is written. -/
  | written

/-- What counts only if everything written does. -/
def Reach.aside {α : Type} (reach : Reach) (l : List α) : List α :=
  match reach with
  | .visited => []
  | .written => l

theorem Reach.mem_of_mem_aside {α : Type} {a : α} {l : List α} (member : a ∈ reach.aside l) : a ∈ l := by
  cases reach with
  | visited => cases member
  | written => exact member

section Parts

variable {Q : Type}

/-- The name that an expression consists of; of a dotted one the last part. -/
def Expr.name? : Expr Q → Option String
  | .ident name => some name.value
  | .path parts => some (parts.values.getLast?.getD "")
  | _ => none

def argumentQueries (args : Option (List (Expr Q))) : List Q :=
  match args with
  | none => []
  | some args => Expr.queries.queriesAll args

mutual

/-- What a relation names, outside nested queries. -/
def Relation.mentions : Relation Q → List Mention
  | .table name none _ _ _ => [.table name]
  | .table name (some args) _ _ _ => [.call name (args.map Expr.name?)]
  | .nested first joins _ => first.mentions ++ Join.mentionsAll joins
  | .pivot source _ => source.mentions
  | .derived _ _ _ | .unnest _ _ | .other _ => []

def Join.mentionsAll : List (Join Q) → List Mention
  | [] => []
  | .mk _ _ relation _ :: rest => relation.mentions ++ Join.mentionsAll rest

end

def FromItem.mentions (item : FromItem Q) : List Mention :=
  item.first.mentions ++ Join.mentionsAll item.joins

def Body.mentions : Body Q → List Mention
  | .select s => s.source.flatMap FromItem.mentions
  | .setOp _ left right => left.mentions ++ right.mentions
  | .write w => w.target.mentions ++ w.source.toList.flatMap FromItem.mentions
  | .query _ | .values _ _ | .table _ => []

mutual

/-- The queries nested in a relation, within reach. -/
def Relation.inner (reach : Reach) : Relation Q → List Q
  | .table _ args _ _ hints => reach.aside (argumentQueries args ++ hints.queries)
  | .derived _ query _ => [query]
  | .nested first joins _ => first.inner reach ++ Join.innerAll reach joins
  | .unnest arrays _ => Expr.queries.queriesAll arrays
  | .pivot source turn => source.inner reach ++ reach.aside turn.queries
  | .other construct => reach.aside construct.queries

def Join.innerAll (reach : Reach) : List (Join Q) → List Q
  | [] => []
  | .mk _ kind relation constraint :: rest =>
    relation.inner reach ++ reach.aside kind.queries ++ constraint.queries ++ Join.innerAll reach rest

end

def FromItem.inner (reach : Reach) (item : FromItem Q) : List Q :=
  item.first.inner reach ++ Join.innerAll reach item.joins

def SelectItem.inner (reach : Reach) : SelectItem Q → List Q
  | .wildcard options | .qualifiedWildcard _ options => reach.aside options.queries
  | .expr e | .aliased e _ => e.queries

/-- The queries nested in the clauses of a SELECT that see its FROM clause, within reach. -/
def Select.clauseQueries (reach : Reach) (s : Select Q) : List Q :=
  s.items.flatMap (SelectItem.inner reach) ++ queriesOf s.filter ++ s.groupBy.queries ++
    queriesOf s.having ++ queriesOf s.qualify

/-- The queries nested in the clauses of a SELECT that are kept as they are written. -/
def Select.otherQueries (s : Select Q) : List Q :=
  s.quantifier.queries ++ s.views.queries ++ s.distribution.queries ++ s.windows.queries ++
    s.trailer.queries

def Select.inner (reach : Reach) (s : Select Q) : List Q :=
  s.source.flatMap (FromItem.inner reach) ++ s.clauseQueries reach ++ reach.aside s.otherQueries

def Body.inner (reach : Reach) : Body Q → List Q
  | .select s => s.inner reach
  | .query q => [q]
  | .setOp _ left right => left.inner reach ++ right.inner reach
  | .values rows _ => rows.flatMap fun row => row.flatMap Expr.queries
  | .table _ => []
  | .write w => w.target.inner reach ++ w.source.toList.flatMap (FromItem.inner reach) ++
    reach.aside (w.change.queries ++ w.trailer.queries)

end Parts

def orderQueries (items : List (OrderItem Query)) : List Query :=
  items.flatMap fun item => item.expr.queries

/-- The queries nested in a query besides its WITH entries, within reach. -/
def Query.inner (reach : Reach) (q : Query) : List Query :=
  q.body.inner reach ++ orderQueries q.orderBy ++
    reach.aside (queriesOf q.limit ++ q.trailer.queries)

/-- The WITH names that an entry sees, given the entries in front of it. -/
def Query.visibleTo (q : Query) (front : List (Cte Query)) (cte : Cte Query) : List String :=
  if q.recursive then front.map With.nameOf ++ [With.nameOf cte] else front.map With.nameOf

/-- A query reads what its FROM clauses name and what its nested queries read. `outer` are the WITH
    names visible around the query, `bound` those visible where the name stands. -/
inductive Query.Reads (reach : Reach) : List String → Query → List String → Mention → Prop
  | here {outer : List String} {q : Query} {mention : Mention} :
      mention ∈ q.body.mentions → Reads reach outer q (With.names q ++ outer) mention
  | nested {outer bound : List String} {q inner : Query} {mention : Mention} :
      inner ∈ q.inner reach → Reads reach (With.names q ++ outer) inner bound mention →
      Reads reach outer q bound mention
  | entry {outer bound : List String} {q : Query} {mention : Mention} {front back : List (Cte Query)}
      {cte : Cte Query} :
      q.ctes = front ++ cte :: back →
      Reads reach (q.visibleTo front cte ++ outer) cte.query bound mention →
      Reads reach outer q bound mention

/-- A query mentions what it reads, whatever is visible there. -/
def Query.Mentions (reach : Reach) (q : Query) (mention : Mention) : Prop :=
  ∃ bound, q.Reads reach [] bound mention

section Nesting

variable {Q : Type} {reach : Reach} {x : Q}

mutual

private theorem Relation.queries_of_inner : ∀ {r : Relation Q}, x ∈ r.inner reach → x ∈ r.queries
  | .table _ none _ _ _, h | .table _ (some _) _ _ _, h => by
    simpa [Relation.queries, argumentQueries] using Reach.mem_of_mem_aside h
  | .derived _ _ _, h => h
  | .nested first joins _, h => by
    simp only [Relation.inner, mem_append] at h
    simp only [Relation.queries, mem_append]
    exact h.imp Relation.queries_of_inner Join.queries_of_inner
  | .unnest _ _, h => h
  | .pivot source turn, h => by
    simp only [Relation.inner, mem_append] at h
    simp only [Relation.queries, mem_append]
    exact h.imp Relation.queries_of_inner Reach.mem_of_mem_aside
  | .other _, h => Reach.mem_of_mem_aside h

private theorem Join.queries_of_inner :
    ∀ {js : List (Join Q)}, x ∈ Join.innerAll reach js → x ∈ Join.queriesAll js
  | [], h => h
  | .mk _ _ _ _ :: _, h => by
    simp only [Join.innerAll, mem_append] at h
    simp only [Join.queriesAll, Join.queries, mem_append]
    exact h.imp (fun h => h.imp (fun h => h.imp Relation.queries_of_inner
      Reach.mem_of_mem_aside) id) Join.queries_of_inner

end

private theorem FromItem.queries_of_inner {i : FromItem Q} (h : x ∈ i.inner reach) : x ∈ i.queries := by
  simp only [FromItem.inner, mem_append] at h
  simp only [FromItem.queries, mem_append]
  exact h.imp Relation.queries_of_inner Join.queries_of_inner

private theorem SelectItem.queries_of_inner {i : SelectItem Q} (h : x ∈ i.inner reach) : x ∈ i.queries := by
  cases i with
  | wildcard | qualifiedWildcard => exact Reach.mem_of_mem_aside h
  | expr | aliased => exact h

private theorem Select.queries_of_inner {s : Select Q} (h : x ∈ s.inner reach) : x ∈ s.queries := by
  have sources : x ∈ s.source.flatMap (FromItem.inner reach) → x ∈ s.source.flatMap FromItem.queries := by
    simp only [mem_flatMap]
    rintro ⟨i, member, h⟩
    exact ⟨i, member, FromItem.queries_of_inner h⟩
  have items : x ∈ s.items.flatMap (SelectItem.inner reach) → x ∈ s.items.flatMap SelectItem.queries := by
    simp only [mem_flatMap]
    rintro ⟨i, member, h⟩
    exact ⟨i, member, SelectItem.queries_of_inner h⟩
  have others : x ∈ reach.aside s.otherQueries → x ∈ s.otherQueries := Reach.mem_of_mem_aside
  simp only [Select.otherQueries, mem_append] at others
  simp only [Select.inner, Select.clauseQueries, Select.otherQueries, mem_append] at h
  simp only [Select.queries, mem_append]
  grind

theorem Expr.queriesAll_eq_flatMap (l : List (Expr Q)) : Expr.queries.queriesAll l = l.flatMap Expr.queries := by
  induction l with
  | nil => rfl
  | cons e l ih => simp [Expr.queries.queriesAll, ih]

theorem Body.queries_of_inner : ∀ {b : Body Q}, x ∈ b.inner reach → x ∈ b.queries
  | .select _, h => Select.queries_of_inner h
  | .query _, h => h
  | .setOp _ _ _, h => by
    simp only [Body.inner, mem_append] at h
    simp only [Body.queries, mem_append]
    exact h.imp queries_of_inner queries_of_inner
  | .values _ _, h => h
  | .table _, h => h
  | .write w, h => by
    have sources : x ∈ w.source.toList.flatMap (FromItem.inner reach) →
        x ∈ w.source.toList.flatMap FromItem.queries := by
      simp only [mem_flatMap]
      rintro ⟨i, member, h⟩
      exact ⟨i, member, FromItem.queries_of_inner h⟩
    have targets : x ∈ w.target.inner reach → x ∈ w.target.queries :=
      FromItem.queries_of_inner
    have others : x ∈ reach.aside (w.change.queries ++ w.trailer.queries) →
        x ∈ w.change.queries ++ w.trailer.queries := Reach.mem_of_mem_aside
    simp only [mem_append] at others
    simp only [Body.inner, mem_append] at h
    simp only [Body.queries, Write.queries, mem_append]
    grind

end Nesting

theorem Query.queries_of_inner (h : x ∈ q.inner reach) : x ∈ q.queries := by
  have others : x ∈ reach.aside (queriesOf q.limit ++ q.trailer.queries) →
      x ∈ queriesOf q.limit ++ q.trailer.queries := Reach.mem_of_mem_aside
  have body : x ∈ q.body.inner reach → x ∈ q.body.queries := Body.queries_of_inner
  simp only [mem_append] at others
  simp only [inner, orderQueries, mem_append] at h
  simp only [queries, mem_append]
  grind

theorem Query.height_lt_inner (h : x ∈ q.inner reach) : x.height < q.height :=
  height_lt_queries (queries_of_inner h)

theorem Query.queries_of_ctes (h : cte ∈ q.ctes) : cte.query ∈ q.queries := by
  simp only [queries, mem_append]
  exact .inl (.inl (.inl (.inl (mem_map_of_mem h))))

theorem Query.height_lt_ctes (h : cte ∈ q.ctes) : cte.query.height < q.height :=
  height_lt_queries (queries_of_ctes h)

/-- What a query reads does not depend on what is visible around it: elsewhere, its own WITH names are visible
    in front of the names there. -/
theorem Query.Reads.moves (reads : q.Reads reach outer bound mention) :
    ∃ own, bound = own ++ outer ∧ ∀ other, q.Reads reach other (own ++ other) mention := by
  induction reads with
  | here member => exact ⟨_, rfl, fun _ => .here member⟩
  | nested member _ ih =>
    obtain ⟨own, rfl, moved⟩ := ih
    refine ⟨own ++ With.names _, (append_assoc _ _ _).symm, fun other => ?_⟩
    rw [append_assoc]
    exact .nested member (moved _)
  | @entry outer bound q mention front back cte split _ ih =>
    obtain ⟨own, rfl, moved⟩ := ih
    refine ⟨own ++ q.visibleTo front cte, (append_assoc _ _ _).symm, fun other => ?_⟩
    rw [append_assoc]
    exact .entry split (moved _)

theorem Query.Reads.elsewhere (reads : q.Reads reach outer bound mention) (other : List String) :
    ∃ bound', q.Reads reach other bound' mention := by
  obtain ⟨own, _, moved⟩ := reads.moves
  exact ⟨_, moved other⟩

theorem Query.Reads.mentions (reads : q.Reads reach outer bound mention) : q.Mentions reach mention :=
  reads.elsewhere []

theorem Query.mentions_iff : q.Mentions reach mention ↔ mention ∈ q.body.mentions ∨
      (∃ x ∈ q.inner reach, x.Mentions reach mention) ∨
      ∃ cte ∈ q.ctes, cte.query.Mentions reach mention := by
  constructor
  · rintro ⟨bound, reads⟩
    cases reads with
    | here member => exact .inl member
    | nested member reads => exact .inr (.inl ⟨_, member, reads.mentions⟩)
    | entry split reads => exact .inr (.inr ⟨_, by simp [split], reads.mentions⟩)
  · rintro (member | ⟨x, member, bound, reads⟩ | ⟨cte, member, bound, reads⟩)
    · exact ⟨_, .here member⟩
    · obtain ⟨bound', reads⟩ := reads.elsewhere (With.names q ++ [])
      exact ⟨bound', .nested member reads⟩
    · obtain ⟨front, back, split⟩ := append_of_mem member
      obtain ⟨bound', reads⟩ := reads.elsewhere (q.visibleTo front cte ++ [])
      exact ⟨bound', .entry split reads⟩

/-- What a query mentions in its own clauses and in the entries of some names. -/
def Query.MentionsIn (p : String → Prop) (reach : Reach) (q : Query) (mention : Mention) : Prop :=
  mention ∈ q.body.mentions ∨ (∃ x ∈ q.inner reach, x.Mentions reach mention) ∨
    ∃ cte ∈ q.ctes, p (With.nameOf cte) ∧ cte.query.Mentions reach mention

theorem Query.MentionsIn.mentions {p : String → Prop}
    (mentions : q.MentionsIn p reach mention) : q.Mentions reach mention :=
  mentions_iff.mpr (mentions.imp_right (Or.imp_right fun ⟨cte, member, _, h⟩ => ⟨cte, member, h⟩))

section Names

variable {Q : Type}

mutual

private theorem Relation.map_name_mentions : ∀ r : Relation Q, r.mentions.map Mention.name = r.tableNames
  | .table _ none _ _ _ | .table _ (some _) _ _ _ => rfl
  | .nested first joins _ => by
    simp only [Relation.mentions, Relation.tableNames, map_append,
      Relation.map_name_mentions first, Join.map_name_mentions joins]
  | .pivot source _ => Relation.map_name_mentions source
  | .derived _ _ _ | .unnest _ _ | .other _ => rfl

private theorem Join.map_name_mentions :
    ∀ js : List (Join Q), (Join.mentionsAll js).map Mention.name = Join.tableNamesAll js
  | [] => rfl
  | .mk _ _ relation _ :: rest => by
    simp only [Join.mentionsAll, Join.tableNamesAll, map_append,
      Relation.map_name_mentions relation, Join.map_name_mentions rest]

end

private theorem FromItem.map_name_mentions (item : FromItem Q) : item.mentions.map Mention.name = item.tableNames := by
  simp only [FromItem.mentions, FromItem.tableNames, map_append, Relation.map_name_mentions, Join.map_name_mentions]

theorem Body.map_name_mentions : ∀ b : Body Q, b.mentions.map Mention.name = b.tableNames
  | .select s => by
    simp only [Body.mentions, Body.tableNames, map_flatMap, FromItem.map_name_mentions]
  | .setOp _ left right => by
    simp only [Body.mentions, Body.tableNames, map_append, map_name_mentions left, map_name_mentions right]
  | .write w => by
    simp only [Body.mentions, Body.tableNames, map_append, map_flatMap, FromItem.map_name_mentions]
  | .query _ | .values _ _ | .table _ => rfl

theorem Body.mem_lastParts {b : Body Q} (member : mention ∈ b.mentions)
    (last : mention.name.values.getLast? = some part) : part ∈ lastParts b.tableNames := by
  rw [← Body.map_name_mentions]
  exact mem_filterMap.mpr ⟨mention.name, mem_map_of_mem member, last⟩

end Names

theorem Query.height_pos (q : Query) : 0 < q.height := by
  rw [height.eq_def]
  omega

/-- What can be done up to the height of a query can be done one level deep. -/
theorem Query.exists_succ {n : Nat} (low : q.height ≤ n) : ∃ k, n = k + 1 :=
  Nat.exists_eq_add_of_le' (Nat.lt_of_lt_of_le q.height_pos low)

namespace Query

/-- A name of a table or table function anywhere in a query. -/
inductive Names : Query → Path → Prop
  | here {q : Query} {name : Path} : name ∈ q.body.tableNames → Names q name
  | nested {q x : Query} {name : Path} : x ∈ q.queries → Names x name → Names q name

theorem Names.of_mention (member : mention ∈ q.body.mentions) : q.Names mention.name := by
  refine .here ?_
  rw [← Body.map_name_mentions]
  exact mem_map_of_mem member

theorem Reads.named (reads : q.Reads reach outer bound mention) : q.Names mention.name := by
  induction reads with
  | here member => exact .of_mention member
  | nested member _ ih => exact .nested (queries_of_inner member) ih
  | entry split _ ih => exact .nested (queries_of_ctes (by simp [split])) ih

theorem Names.mem_relations {name : Path} (named : q.Names name) (last : name.values.getLast? = some part) :
    part ∈ q.relations := by
  have deep : ∀ n, q.height ≤ n → part ∈ q.relationsAt n := by
    induction named with
    | @here q name member =>
      intro n low
      obtain ⟨n, rfl⟩ := exists_succ low
      rw [relationsAt]
      exact mem_append_left _ (mem_filterMap.mpr ⟨name, member, last⟩)
    | @nested q x name member _ ih =>
      intro n low
      obtain ⟨n, rfl⟩ := exists_succ low
      have lower := height_lt_queries member
      rw [relationsAt]
      exact mem_append_right _ (mem_flatMap.mpr ⟨x, member, ih last n (by omega)⟩)
  exact deep q.height (Nat.le_refl _)

theorem Mentions.mem_relations (mentions : q.Mentions reach mention)
    (last : mention.name.values.getLast? = some part) : part ∈ q.relations := by
  obtain ⟨_, reads⟩ := mentions
  exact reads.named.mem_relations last

end Query

end SemanticLayer.Sql
