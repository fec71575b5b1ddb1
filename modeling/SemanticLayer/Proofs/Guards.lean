import SemanticLayer.Proofs.Dereferencing
import SemanticLayer.Proofs.Lookups

/-! # Queries whose names are guarded

Joining a model brings its columns into scope. A name is guarded against them if it cannot be changed by them, or if
it is bare and will be written with its relation before. The conditions are stated for one query in the scope around
it, and then for all queries that a query encloses.
-/

namespace SemanticLayer

open Sql

namespace Sql

def Body.isSelect : Body Query → Bool
  | .select _ => true
  | .query _ | .setOp _ _ _ | .values _ _ | .table _ | .write _ => false

def Body.isQuery : Body Query → Bool
  | .query _ => true
  | .select _ | .setOp _ _ _ | .values _ _ | .table _ | .write _ => false

/-- The ORDER BY items that belong to no single SELECT. -/
def Query.looseOrder (q : Query) : List (OrderItem Query) := if q.body.isSelect then [] else q.orderBy

abbrev Path.Dotted (name : Path) : Prop := 2 ≤ name.length

end Sql

/-- No field in scope has a name. -/
def Scope.Lacks (s : Scope) (word : String) : Prop := ∀ frame ∈ s, ∀ f ∈ frame.fields, f.name ≠ word

instance (s : Scope) (word : String) : Decidable (s.Lacks word) :=
  inferInstanceAs (Decidable (∀ frame ∈ s, ∀ f ∈ frame.fields, f.name ≠ word))

namespace Context

variable (c : Context) (targets : List String)

section Names

def JoinedColumn (word : String) : Prop := ∃ target ∈ targets, ∃ f ∈ c.tableFields [.ofName target], f.name = word

/-- A scope with fields of joined models. -/
abbrev Swells (s s' : Scope) : Prop := s.Swells (fun f => c.JoinedColumn targets f.name) s'

/-- A name that means what it means whatever is joined. -/
@[mk_iff]
inductive Steady (s : Scope) (name : Path) : Prop
  | blank (blank : s.Blank)
  | foreign (apart : ∀ word ∈ DottedName.leads name.values, ¬ c.JoinedColumn targets word)
      (first : s.Resolves (name.values.take 1))
      (direct : ∀ f rest, s.reference name.values ≠ .ok (.through f rest))
  | known (dotted : 2 ≤ name.length) (known : s.Knows name.values)

/-- A steady name, or a bare one that means a field within reach. -/
def Secure (reach s : Scope) (name : Path) : Prop :=
  c.Steady targets s name ∨ ∃ bare f, name = [bare] ∧ reach.resolve [bare.value] = .ok (some f)

/-- A name none of whose words is that of a field, be it in scope or joined. -/
def Plain (s : Scope) (name : DottedName) : Prop :=
  ∀ word ∈ name.leads, s.Lacks word ∧ ¬ c.JoinedColumn targets word

/-- A model can be joined without confusion: its new name is not taken, and its condition names columns of
relations that no column is called like. -/
@[mk_iff]
structure Fits (s : Scope) (j : RelatedJoin) : Prop where
  free : s.Lacks j.label ∧ ¬ c.JoinedColumn targets j.label
  fresh : ∀ frame ∈ s, ∀ f ∈ frame.fields, f.qualifier ≠ j.label
  distinct : DistinctFields (c.joinedFields j)
  names : ∀ name ∈ j.condition.names, c.Plain targets s name.values
  queries : j.condition.queries = []

/-- A name that asks for a join that fits. -/
def Asks (s : Scope) (name : Path) : Prop :=
  ∃ f column j, s.reference name.values = .ok (.through f [column]) ∧ RelatedJoin.ofField c.layer f = .ok j ∧
    c.Fits targets s j

/-- A secure name, or one that asks for a join that fits. -/
def Guarded (reach s : Scope) (name : Path) : Prop := c.Secure targets reach s name ∨ c.Asks targets s name

end Names

section Levels

/-- The fields that bare names in ORDER BY are written with: not those that an alias hides. -/
def orderReach (a : Clauses) (name : Path) : Scope :=
  if DottedName.suffix name.values ∈ aliasNames a.select.items then [] else [c.frame a]

variable {c} in
theorem orderReach_near (a : Clauses) (name : Path) (s : Scope) : c.orderReach a name <+: c.frame a :: s := by
  unfold orderReach
  split
  · exact List.nil_prefix
  · exact ⟨s, rfl⟩

variable (rule : Scope → Scope → Path → Prop)

/-- An expression of a FROM clause, where bare names mean fields of that clause. -/
def SafeCondition (s : Scope) (fields : List Field) (e : Expr Query) : Prop :=
  Scope.Blank ({ fields } :: s) ∨ DistinctFields fields ∧ e.queries = [] ∧
    ∀ name ∈ e.names, c.Secure targets [{ fields }] ({ fields } :: s) name

/-- The names in the clauses of a SELECT obey a rule, but for aliases that ORDER BY consists of. -/
@[mk_iff]
structure SafeNames (s : Scope) (a : Clauses) : Prop where
  dotted : ∀ e ∈ a.exprs .written, ∀ name ∈ e.paths, name.Dotted
  clause : ∀ e ∈ a.select.exprs .written, ∀ name ∈ e.names, rule (c.frame a :: s) (c.frame a :: s) name
  order : ∀ item ∈ a.orderBy, (∃ name, item.expr = .ident name ∧ name.value ∈ aliasNames a.select.items) ∨
    ∀ name ∈ item.expr.names, rule (c.orderReach a name) (c.frame a :: s) name

/-- The relations of a FROM clause are distinct and its expressions are clear. It holds no query where names mean
fields around it. -/
@[mk_iff]
structure SafeSource (s : Scope) (a : Clauses) : Prop where
  distinct : DistinctFields (c.frame a).fields
  conditions : ∀ p ∈ c.sourceExprs a.select.source, c.SafeCondition targets s p.1 p.2
  derived : a.inner .visited = [] ∨ s.Blank

/-- A SELECT whose names obey a rule. Its ORDER BY holds no query where names mean fields. -/
@[mk_iff]
structure SafeSelect (s : Scope) (a : Clauses) : Prop extends
    c.SafeNames rule s a, c.SafeSource targets s a where
  ordering : orderQueries a.orderBy = [] ∨ Scope.Blank (c.frame a :: s)

/-- A query whose names obey a rule, apart from the queries in it. -/
@[mk_iff]
structure SafeLevel (s : Scope) (q : Query) : Prop where
  accepted : c.Accepts q
  entries : q.ctes = [] ∨ s.Blank
  loose : ∀ e ∈ q.body.rowExprs ++ q.looseOrder.map (·.expr), e.queries = [] ∧ ∀ name ∈ e.names, c.Steady targets s name
  alone : q.body.isQuery = true → q.orderBy = []
  selects : ∀ a ∈ q.body.selects q.orderBy, c.SafeSelect targets rule s a

end Levels

/-- A query encloses another one, with the scope around it. Queries in a FROM clause do not see what is around them. -/
inductive Encloses : Scope → Query → Scope → Query → Prop
  | self {s : Scope} {q : Query} : Encloses s q s q
  | clause {s t : Scope} {q x y : Query} {a : Clauses} : a ∈ q.body.selects q.orderBy → x ∈ a.queries .written →
      Encloses (c.frame a :: s) x t y → Encloses s q t y
  | source {s t : Scope} {q x y : Query} {a : Clauses} : a ∈ q.body.selects q.orderBy → x ∈ a.inner .written →
      Encloses [] x t y → Encloses s q t y
  | operand {s t : Scope} {q x y : Query} : x ∈ q.body.operands → Encloses s x t y → Encloses s q t y
  | entry {s t : Scope} {q y : Query} {cte : Cte Query} : cte ∈ q.ctes → Encloses s cte.query t y → Encloses s q t y

/-- All names in a query obey a rule. -/
def Safe (rule : Scope → Scope → Path → Prop) (s : Scope) (q : Query) : Prop :=
  ∀ t x, c.Encloses s q t x → c.SafeLevel targets rule t x

/-- The queries in a SELECT have a property in their scopes. -/
structure Holding (p : Scope → Query → Prop) (s : Scope) (a : Clauses) : Prop where
  nested : ∀ x ∈ a.queries .written, p (c.frame a :: s) x
  source : ∀ x ∈ a.inner .written, p [] x

section Safety

variable {c targets} {rule : Scope → Scope → Path → Prop} {s : Scope} {q : Query}

theorem Safe.level (safe : c.Safe targets rule s q) : c.SafeLevel targets rule s q := safe s q .self

theorem Safe.holding (safe : c.Safe targets rule s q) {a : Clauses} (member : a ∈ q.body.selects q.orderBy) :
    c.Holding (c.Safe targets rule) s a :=
  ⟨fun _ nested t y inside => safe t y (.clause member nested inside),
    fun _ nested t y inside => safe t y (.source member nested inside)⟩

theorem Safe.operand (safe : c.Safe targets rule s q) {x : Query} (member : x ∈ q.body.operands) :
    c.Safe targets rule s x :=
  fun t y inside => safe t y (.operand member inside)

theorem Safe.entry (safe : c.Safe targets rule s q) {cte : Cte Query} (member : cte ∈ q.ctes) :
    c.Safe targets rule s cte.query :=
  fun t y inside => safe t y (.entry member inside)

theorem Safe.of_parts (level : c.SafeLevel targets rule s q)
    (selects : ∀ a ∈ q.body.selects q.orderBy, c.Holding (c.Safe targets rule) s a)
    (operands : ∀ x ∈ q.body.operands, c.Safe targets rule s x)
    (entries : ∀ cte ∈ q.ctes, c.Safe targets rule s cte.query) : c.Safe targets rule s q := by
  intro t x inside
  cases inside with
  | self => exact level
  | clause member nested inside => exact (selects _ member).nested _ nested t x inside
  | source member nested inside => exact (selects _ member).source _ nested t x inside
  | operand member inside => exact operands _ member t x inside
  | entry member inside => exact entries _ member t x inside

end Safety

section Steadiness

variable {c targets} {s s' : Scope} {name : Path}

theorem answersTo_of_apart {f : Field} {name : DottedName} (apart : ¬ c.JoinedColumn targets name.suffix)
    (joined : c.JoinedColumn targets f.name) : f.answersTo name = false := by
  rw [Bool.eq_false_iff]
  intro answers
  rw [Field.name_of_answersTo answers] at joined
  exact apart joined

theorem Steady.swells (steady : c.Steady targets s name) (swells : c.Swells targets s s') :
    c.Steady targets s' name := by
  cases steady with
  | blank blank =>
    rw [swells.eq_of_blank blank]
    exact .blank blank
  | known dotted known => exact .known dotted (swells.grows.knows known)
  | foreign apart first direct =>
    refine .foreign apart ?_ fun f rest goes => ?_
    · obtain ⟨found, meaning⟩ := first
      refine ⟨found, (swells.resolve_eq fun f joined => ?_).trans meaning⟩
      exact answersTo_of_apart (apart _ (DottedName.suffix_take_mem_leads _)) joined
    · -- A joined field answers to no head of the name, so the relationship was there before.
      by_cases joined : c.JoinedColumn targets f.name
      · obtain ⟨_, found, _⟩ := Scope.reference_eq_through.mp goes
        obtain ⟨head, cut, meaning⟩ := Scope.firstHead_eq_some found
        obtain ⟨answers, _⟩ := Scope.resolve_eq_some meaning
        rw [Field.name_of_answersTo answers] at joined
        exact apart _ (DottedName.suffix_mem_leads_of_cut cut) joined
      · exact direct f rest (swells.grows.reference goes joined)

theorem Scope.Lacks.not_knows {word : String} (lacks : s.Lacks word) {name : DottedName} (last : name.suffix = word) :
    ¬ s.Knows name := by
  rintro ⟨frame, member, f, inFrame, answers⟩
  exact lacks frame member f inFrame ((Field.name_of_answersTo answers).trans last)

theorem Plain.steady (plain : c.Plain targets s name.values) : c.Steady targets s name := by
  refine .foreign (fun word member => (plain word member).2) ⟨none, ?_⟩ fun f rest goes => ?_
  · refine Scope.resolve_eq_none_iff.mpr (Scope.Lacks.not_knows (plain _ ?_).1 rfl)
    exact DottedName.suffix_take_mem_leads _
  · obtain ⟨_, found, _⟩ := Scope.reference_eq_through.mp goes
    obtain ⟨head, cut, meaning⟩ := Scope.firstHead_eq_some found
    obtain ⟨answers, frame, member, inFrame⟩ := Scope.resolve_eq_some meaning
    refine (plain _ (DottedName.suffix_mem_leads_of_cut cut)).1 frame member f inFrame ?_
    exact Field.name_of_answersTo answers

theorem Scope.Lacks.swells {word : String} (lacks : s.Lacks word) (apart : ¬ c.JoinedColumn targets word)
    (swells : c.Swells targets s s') : s'.Lacks word := by
  induction swells with
  | nil => exact lacks
  | cons here _ ih =>
    obtain ⟨first, rest⟩ := List.forall_mem_cons.mp lacks
    refine List.forall_mem_cons.mpr ⟨fun f member named => ?_, ih rest⟩
    rcases here.grows.added f member with old | joined
    · exact first f old named
    · exact apart (named ▸ joined)

theorem Plain.swells {name : DottedName} (plain : c.Plain targets s name) (swells : c.Swells targets s s') :
    c.Plain targets s' name :=
  fun word member => ⟨Scope.Lacks.swells (plain word member).1 (plain word member).2 swells, (plain word member).2⟩

/-- A steady name can be looked up among distinct relations, and goes through nothing. -/
theorem Steady.clear (steady : c.Steady targets s name) (distinct : s.Distinct) :
    s.Clear name.values ∧ ∀ f rest, s.reference name.values ≠ .ok (.through f rest) := by
  cases steady with
  | blank blank =>
    refine ⟨blank.clear _, ?_⟩
    rw [blank.reference]
    intro f rest through
    cases through
  | foreign apart first direct => exact ⟨distinct.clear first, direct⟩
  | known dotted known =>
    have several : 2 ≤ name.values.length := by rwa [Path.values, List.length_map]
    obtain ⟨f, meaning⟩ := Scope.reference_known distinct several known
    refine ⟨⟨_, meaning⟩, ?_⟩
    rw [meaning]
    intro f rest through
    cases through

theorem Secure.clear {reach : Scope} (secure : c.Secure targets reach s name) (near : reach <+: s)
    (distinct : s.Distinct) : s.Clear name.values ∧ ∀ f rest, s.reference name.values ≠ .ok (.through f rest) := by
  rcases secure with steady | ⟨bare, f, rfl, meaning⟩
  · exact steady.clear distinct
  · obtain ⟨outer, rfl⟩ := near
    have whole := Scope.resolve_append meaning outer
    have means : Scope.reference (reach ++ outer) [bare.value] = .ok (.field f) := by
      rw [Scope.reference, whole]
      rfl
    refine ⟨⟨_, means⟩, ?_⟩
    change ∀ f rest, Scope.reference _ [bare.value] ≠ _
    rw [means]
    intro f rest through
    cases through

end Steadiness

end Context

end SemanticLayer
