import SemanticLayer.Proofs.Joined
import SemanticLayer.Proofs.Objects
import SemanticLayer.Proofs.Rollups

/-! # What becomes of dotted names

A dotted name that goes through a relationship column becomes a column of a joined model. Every other dotted
name stays as it is written, also if the scope of its SELECT grows by joins that other names ask for.
-/

namespace SemanticLayer

open Sql List
open Judgement (always returns returns_bind)

namespace Context

variable {c : Context} {reach : Reach} {parent s : Scope} {q : Query} {a : Clauses}

/-- A query as it is written from the manifest, before anything is done with it. The query of a metric is
joined as soon as it is written, so it does not count. -/
inductive Generated (c : Context) : Query → Prop
  | model {m : Model} {sql : String} {x : Query} :
      m ∈ c.layer.manifest.models → m.sql c.layer = .ok sql → readQuery sql = .ok x → Generated c x
  | cumulativeMetric {m : CumulativeMetric} {sql : String} {x : Query} :
      m ∈ c.layer.manifest.cumulativeMetrics → m.sql = .ok sql → readQuery sql = .ok x → Generated c x
  | rollup {r : Rollup} {x : Query} :
      r.metric ∈ c.layer.manifest.metrics → readQuery r.sql = .ok x → Generated c x
  | condition {x : Query} : c.InCondition x → Generated c x

theorem holds_iff : c.Holds reach parent q s a ↔
    c.Holds reach parent { q with ctes := [] } s a ∨ ∃ cte ∈ q.ctes, c.Holds reach parent cte.query s a := by
  constructor
  · intro holds
    cases holds with
    | here member => exact .inl (.here member)
    | clause member nested holds => exact .inl (.clause member nested holds)
    | source member nested holds => exact .inl (.source member nested holds)
    | operand member holds => exact .inl (.operand member holds)
    | entry member holds => exact .inr ⟨_, member, holds⟩
  · rintro (holds | ⟨cte, member, holds⟩)
    · cases holds with
      | here member => exact .here member
      | clause member nested holds => exact .clause member nested holds
      | source member nested holds => exact .source member nested holds
      | operand member holds => exact .operand member holds
      | entry member => cases member
    · exact .entry member holds

theorem holds_push {l : Layer} {name : String} {body : Query} : c.Holds reach parent (With.push l name body q) s a ↔
      c.Holds reach parent q s a ∨ c.Holds reach parent body s a := by
  rw [holds_iff, holds_iff (q := q)]
  simp only [With.push_perm.mem_iff, List.mem_cons, exists_eq_or_imp]
  have same : { With.push l name body q with ctes := [] } = { q with ctes := [] } := rfl
  rw [same, ← or_assoc, or_right_comm]

theorem holds_sort : c.Holds reach parent (With.sort q) s a ↔ c.Holds reach parent q s a := by
  rw [holds_iff, holds_iff (q := q)]
  have same : { With.sort q with ctes := [] } = { q with ctes := [] } := by
    unfold With.sort
    split <;> rfl
  simp only [same, (With.sort_reordered q).perm.mem_iff]

theorem addModels_keeps {l : Layer} {p : Query → Prop}
    (keeps : ∀ q name m sql body, m ∈ l.manifest.models → m.sql l = .ok sql → readQuery sql = .ok body → p q →
      p (With.push l name body q)) (models : List String) (q : Query) (start : p q) :
    Judgement.returns.holds (addModels l models q) p := by
  intro q' added
  refine (addModels_pushed l models q q' added).1.keeps ?_ start
  rintro q name body ⟨m, sql, found, written, read⟩
  exact keeps q name m sql body (List.mem_of_find?_eq_some found) written read

end Context

variable {s s' : Scope} {l : Layer} {name name' : Path}

/-- What the finder of relationship joins puts in the place of a name. -/
inductive Dereferences (l : Layer) (s : Scope) : Path → Path → Prop
  | kept {name : Path} : (∀ f rest, s.reference name.values ≠ .ok (.through f rest)) → Dereferences l s name name
  | joined {name : Path} {f : Field} {column : String} {j : RelatedJoin} :
      s.reference name.values = .ok (.through f [column]) → RelatedJoin.ofField l f = .ok j →
      Dereferences l s name [.ofName j.label, .ofName column]

/-- What becomes of a name in a scope `s` that grows to `s'`. -/
inductive Becomes (l : Layer) (s s' : Scope) : Path → Path → Prop
  | kept {name : Path} : (∀ f rest, s.reference name.values ≠ .ok (.through f rest)) → Becomes l s s' name name
  | qualified {bare relation : Ident} : s'.Knows (Path.values [relation, bare]) → Becomes l s s' [bare] [relation, bare]
  | joined {name : Path} {f : Field} {column : String} {j : RelatedJoin} :
      s.reference name.values = .ok (.through f [column]) → RelatedJoin.ofField l f = .ok j →
      Becomes l s s' name [.ofName j.label, .ofName column]

/-- A relationship column in scope answers to the part of a name before one of its dots. -/
def Scope.LeadsOn (s : Scope) (name : DottedName) : Prop :=
  ∃ frame ∈ s, ∃ f ∈ frame.fields, f.isRelationship = true ∧ ∃ cut ∈ cuts name, f.answersTo cut.1 = true

instance (s : Scope) (name : DottedName) : Decidable (s.LeadsOn name) :=
  inferInstanceAs (Decidable (∃ frame ∈ s, ∃ f ∈ frame.fields, f.isRelationship = true ∧ ∃ cut ∈ Scope.cuts name,
    f.answersTo cut.1 = true))

instance (s : Scope) (name : DottedName) : Decidable (s.Knows name) :=
  inferInstanceAs (Decidable (∃ frame ∈ s, ∃ f ∈ frame.fields, f.answersTo name = true))

theorem Scope.through_leadsOn {name : DottedName} {f : Field} {rest : DottedName}
    (goes : s.reference name = .ok (.through f rest)) : ¬ s.Knows name ∧ s.LeadsOn name := by
  obtain ⟨unknown, found, relationship⟩ := reference_eq_through.mp goes
  obtain ⟨head, cut, meaning⟩ := firstHead_eq_some found
  obtain ⟨answers, frame, member, inFrame⟩ := resolve_eq_some meaning
  exact ⟨unknown, frame, member, f, inFrame, relationship, (head, rest), cut, answers⟩

theorem Scope.bare_not_through (s : Scope) (name : Ident) (f : Field) (rest : DottedName) :
    s.reference (Path.values [name]) ≠ .ok (.through f rest) := by
  intro goes
  obtain ⟨_, _, head, _, split, nonempty, more⟩ := relationship_of_through goes
  have total := congrArg length split
  have first := length_pos_iff.mpr nonempty
  have second := length_pos_iff.mpr more
  simp only [length_append, Path.values, map_cons, map_nil, length_singleton] at total
  omega

section Finder

variable (l : Layer) (s : Scope)

theorem dereference_renamed (parts : Path) : always.holds (dereference l s parts)
    ((Expr.path parts).Renamed (Dereferences l s) Eq) := by
  intro _ e _ run
  rcases dereference_eq_ok run with ⟨direct, rfl, _⟩ | ⟨f, column, j, _, goes, asks, _, rfl, _⟩
  · exact Expr.renamed_path (.kept direct)
  · exact Expr.renamed_path (.joined goes asks)

theorem dereferences_walked (a : Clauses) : returns.holds (dereferences l a s) fun r =>
    a.Walked (Dereferences l s) Eq r.1 := by
  have renames : Expr.Walk.Renames always
      { Expr.Walk.keep (StateT (List RelatedJoin) (Except CompileError)) Query with path := dereference l s }
      (Dereferences l s) Eq := by
    refine ⟨fun name => always.pure ⟨.cons (.kept (s.bare_not_through name)) .nil, .nil⟩,
      dereference_renamed l s, fun q => always.pure rfl⟩
  intro r returned
  exact Clauses.walk_walked renames a [] r.1 r.2 returned

theorem dereferences_tidy : Context.Tidy (dereferences l) := by
  intro a s r returned
  have walked := dereferences_walked l s a r returned
  refine ⟨walked.same, fun reach => ?_⟩
  have queries := walked.queries reach
  rw [forall₂_eq_eq_eq] at queries
  exact queries.symm

end Finder

/-- First a name is dereferenced, then it is qualified. -/
theorem Dereferences.becomes {between : Path}
    (first : Dereferences l s name between) (second : s'.Qualifies between name') : Becomes l s s' name name' := by
  cases first with
  | kept unrelated =>
    rcases second with rfl | ⟨bare, relation, rfl, rfl, known⟩
    · exact .kept unrelated
    · exact .qualified known
  | joined goes asks =>
    -- A column of a joined model is not bare.
    rcases second with rfl | ⟨_, _, single, _⟩
    · exact .joined goes asks
    · cases single

theorem Becomes.eq (becomes : Becomes l s s' name name')
    (dotted : 2 ≤ name.length) (plain : s.Knows name.values ∨ ¬ s.LeadsOn name.values) : name' = name := by
  cases becomes with
  | kept => rfl
  | qualified => simp at dotted
  | joined goes =>
    obtain ⟨unknown, leads⟩ := Scope.through_leadsOn goes
    rcases plain with known | unled
    · exact absurd known unknown
    · exact absurd leads unled

namespace Context

variable {c : Context} {q q' : Query} {relations relations' : List String} {first second : String} {more : DottedName}
  {names' : List DottedName}

/-- A SELECT of a query written from the manifest, with its names qualified. -/
def FromText (c : Context) (s : Scope) (a : Clauses) : Prop :=
  ∃ x b, c.Generated x ∧ c.Holds .written [] x s b ∧ b.Qualified s a

theorem Linked.becomes {s : Scope} {a a' : Clauses} (linked : c.Linked (dereferences c.layer) s s' a a') :
    Forall₂ (Becomes c.layer s s') (a.names .visited) (a'.names .visited) ∧
      ∀ name' ∈ a'.names .written, ∃ name ∈ a.names .written, Becomes c.layer s s' name name' := by
  obtain ⟨b, b', joins, same, found, qualified⟩ := linked.found
  have walked := dereferences_walked c.layer s b _ found
  constructor
  · rw [← same]
    exact forall₂_compose (fun _ _ _ first second => first.becomes second) (walked.names .visited) qualified.names
  · intro name' member'
    obtain ⟨between, member, second⟩ := qualified.back name' member'
    obtain ⟨name, member, first⟩ := forall₂_exists (walked.names .written).flip between member
    exact ⟨name, same .written ▸ member, first.becomes second⟩

theorem compileRelationships_transfers (reach : Reach) (q : Query) : returns.holds (c.compileRelationships q) fun q' =>
      ∃ joined targets, c.joinRelationships q = .ok (joined, targets) ∧
        (∀ s a, c.Holds reach [] joined s a → c.Holds reach [] q' s a) ∧
        ∀ s a, c.Holds reach [] q' s a → c.Holds reach [] joined s a ∨ ∃ x, c.Generated x ∧ c.Holds reach [] x s a := by
  have joins : returns.holds (c.joinRelationships q) fun r => c.joinRelationships q = .ok r := fun _ h => h
  unfold compileRelationships
  refine returns_bind joins fun (joined, targets) joins => ?_
  have added : returns.holds (addModels c.layer targets joined) fun q' =>
      (∀ s a, c.Holds reach [] joined s a → c.Holds reach [] q' s a) ∧
        ∀ s a, c.Holds reach [] q' s a → c.Holds reach [] joined s a ∨ ∃ x, c.Generated x ∧ c.Holds reach [] x s a := by
    refine addModels_keeps ?_ targets joined ⟨fun _ _ => id, fun _ _ => .inl⟩
    rintro q name m sql body member written read ⟨kept, old⟩
    refine ⟨fun s a holds => holds_push.mpr (.inl (kept s a holds)), fun s a holds => ?_⟩
    rcases holds_push.mp holds with before | inside
    · exact old s a before
    · exact .inr ⟨body, .model member written read, inside⟩
  refine returns_bind added fun q₂ ⟨kept, old⟩ => returns.pure ⟨joined, targets, joins, ?_, ?_⟩
  · exact fun s a holds => holds_sort.mpr (kept s a holds)
  · exact fun s a holds => old s a (holds_sort.mp holds)

/-- Compiling relationships leaves a dotted name as it is written if the name means a field of the scope, even if a
relationship column of the same name as its relation is in scope, or if no relationship column in scope answers to
what stands before its last parts. All names of a SELECT that are not in its clauses stay. The SELECTs that are
new are written from the manifest. -/
theorem compileRelationships_keeps_dotted (compiled : c.compileRelationships q = .ok q') :
    (∀ s a, c.Holds .visited [] q s a → ∃ s' a', c.Holds .visited [] q' s' a' ∧ s.Grows c.IsJoined s' ∧
      List.Forall₂ (fun name name' => Becomes c.layer s s' name name' ∧
          (2 ≤ name.length → s.Knows name.values ∨ ¬ s.LeadsOn name.values → name' = name))
        (a.names .visited) (a'.names .visited) ∧
      ∀ name ∈ a.otherNames, name ∈ a'.otherNames) ∧
    ∀ s' a', c.Holds .written [] q' s' a' → (∃ s a, c.Holds .written [] q s a ∧ s.Grows c.IsJoined s' ∧
        ∀ name' ∈ a'.names .written, ∃ name ∈ a.names .written, Becomes c.layer s s' name name' ∧
          (2 ≤ name.length → s.Knows name.values ∨ ¬ s.LeadsOn name.values → name' = name)) ∨
      c.FromText s' a' := by
  constructor
  · intro s a holds
    obtain ⟨joined, targets, joins, kept, _⟩ := compileRelationships_transfers .visited q q' compiled
    have transfers := joinQuery_transfers .visited (dereferences_sound c.layer) (dereferences_tidy c.layer) joins
    obtain ⟨s', a', holds', linked⟩ := transfers.forth rfl s a holds
    refine ⟨s', a', kept s' a' holds', linked.grows, ?_, linked.kept⟩
    exact linked.becomes.1.imp fun _ _ becomes => ⟨becomes, becomes.eq⟩
  · intro s' a' holds'
    obtain ⟨joined, targets, joins, _, old⟩ := compileRelationships_transfers .written q q' compiled
    have transfers := joinQuery_transfers .written (dereferences_sound c.layer) (dereferences_tidy c.layer) joins
    rcases old s' a' holds' with before | ⟨x, generated, inside⟩
    · rcases transfers.back s' a' before with ⟨s, a, holds, linked⟩ | ⟨x, b, inside, holds, qualified⟩
      · refine .inl ⟨s, a, holds, linked.grows, fun name' member' => ?_⟩
        obtain ⟨name, member, becomes⟩ := linked.becomes.2 name' member'
        exact ⟨name, member, becomes, becomes.eq⟩
      · exact .inr ⟨x, b, .condition inside, holds, qualified⟩
    · exact .inr ⟨x, a', generated, inside, .refl s' a'⟩

/-- The relationship column `band` is in scope next to a relation called `band`, and a third relation has columns that
nobody knows. The names of both relations stay, although the last name asks for a join. -/
theorem dotted_names_kept : ∃ q q' a s' a',
    readQuery "SELECT band.name, x.name FROM Album, Band AS band, raw_t AS x WHERE Album.band.name = 'a'" = .ok q ∧
    compileRelationships ⟨.ofLayer sampleLayer, sampleLayer⟩ q = .ok q' ∧
    Holds ⟨.ofLayer sampleLayer, sampleLayer⟩ .visited [] q [frame ⟨.ofLayer sampleLayer, sampleLayer⟩ a] a ∧
    (a.names .visited).map Path.values = [["band", "name"], ["x", "name"], ["Album", "band", "name"]] ∧
    Scope.LeadsOn [frame ⟨.ofLayer sampleLayer, sampleLayer⟩ a] ["band", "name"] ∧
    Holds ⟨.ofLayer sampleLayer, sampleLayer⟩ .visited [] q' s' a' ∧
    (a'.names .visited).take 2 = (a.names .visited).take 2 := by
  let c : Context := ⟨.ofLayer sampleLayer, sampleLayer⟩
  have run : ∃ q, readQuery
      "SELECT band.name, x.name FROM Album, Band AS band, raw_t AS x WHERE Album.band.name = 'a'" = .ok q ∧
      ∃ q', c.compileRelationships q = .ok q' ∧ ∃ a ∈ q.body.selects q.orderBy,
        (a.names .visited).map Path.values = [["band", "name"], ["x", "name"], ["Album", "band", "name"]] ∧
        Scope.LeadsOn [c.frame a] ["band", "name"] ∧ Scope.Knows [c.frame a] ["band", "name"] ∧
        ¬ Scope.LeadsOn [c.frame a] ["x", "name"] := by
    decide +kernel
  obtain ⟨q, read, q', compiled, a, first, names, leads, known, unled⟩ := run
  have holds : c.Holds .visited [] q [c.frame a] a := .here first
  obtain ⟨s', a', holds', _, becomes, _⟩ := (compileRelationships_keeps_dotted compiled).1 _ a holds
  refine ⟨q, q', a, s', a', read, compiled, holds, names, leads, holds', ?_⟩
  simp only [map_eq_cons_iff, map_eq_nil_iff] at names
  obtain ⟨n₁, _, all, v₁, n₂, _, rfl, v₂, n₃, _, rfl, _, rfl⟩ := names
  rw [all] at becomes ⊢
  generalize a'.names .visited = names' at becomes ⊢
  obtain _ | ⟨⟨_, stays₁⟩, _ | ⟨⟨_, stays₂⟩, _⟩⟩ := becomes
  have long : ∀ {n : Path} {x y : String}, n.values = [x, y] → 2 ≤ n.length := by
    intro n x y values
    have := congrArg length values
    simp only [Path.values, length_map, length_cons, length_nil] at this
    omega
  rw [stays₁ (long v₁) (.inl (v₁ ▸ known)), stays₂ (long v₂) (.inr (v₂ ▸ unled))]
  rfl

/-- The names of a lone SELECT that begin with a relation of its FROM clause stay. -/
def KeepsQualified (q q' : Query) : Prop :=
  ∀ a a', q.body.selects q.orderBy = [a] → q'.body.selects q'.orderBy = [a'] →
    Forall₂ (fun name name' => ∀ first rest, name = first :: rest → rest ≠ [] →
      first.value ∈ a.select.source.flatMap relationNames → name' = name) (a.names .visited) (a'.names .visited)

/-- The names of a lone SELECT, and what the relations of its FROM clause are called. -/
def loneNames (q : Query) : Option (List DottedName × List String) :=
  match q.body.selects q.orderBy with
  | [a] => some ((a.names .visited).map Path.values, a.select.source.flatMap relationNames)
  | _ => none

theorem loneNames_eq_some {names : List DottedName} (found : loneNames q = some (names, relations)) :
    ∃ a, q.body.selects q.orderBy = [a] ∧ (a.names .visited).map Path.values = names ∧
      a.select.source.flatMap relationNames = relations := by
  unfold loneNames at found
  split at found
  · rename_i a lone
    cases found
    exact ⟨a, lone, rfl, rfl⟩
  · cases found

theorem not_keepsQualified (before : loneNames q = some ([first :: second :: more], relations))
    (after : loneNames q' = some (names', relations')) (named : first ∈ relations)
    (changed : names' ≠ [first :: second :: more]) : ¬ KeepsQualified q q' := by
  intro keeps
  obtain ⟨a, lone, names, rfl⟩ := loneNames_eq_some before
  obtain ⟨a', lone', rfl, _⟩ := loneNames_eq_some after
  have pairs := keeps a a' lone lone'
  simp only [map_eq_cons_iff, map_eq_nil_iff] at names
  obtain ⟨name, _, all, values, rfl⟩ := names
  rw [all] at pairs
  generalize a'.names .visited = all' at pairs changed
  obtain _ | ⟨stays, _ | _⟩ := pairs
  obtain ⟨head, tail, rfl, rfl, behind⟩ := map_eq_cons_iff.mp values
  have dotted : tail ≠ [] := by
    rintro rfl
    cases behind
  rw [stays head tail rfl dotted named] at changed
  exact changed (congrArg (fun name => [name]) values)

/-- Compiling the relationships of a text changes a name that begins with a relation. -/
def JoinsQualified (text : String) : Prop :=
  ∃ q q', readQuery text = .ok q ∧ compileRelationships ⟨.ofLayer sampleLayer, sampleLayer⟩ q = .ok q' ∧
    ¬ KeepsQualified q q'

theorem joinsQualified_of_run {text : String}
    (run : ∃ q, readQuery text = .ok q ∧ ∃ q', compileRelationships ⟨.ofLayer sampleLayer, sampleLayer⟩ q = .ok q' ∧
      loneNames q = some ([first :: second :: more], relations) ∧ loneNames q' = some (names', relations'))
    (named : first ∈ relations) (changed : names' ≠ [first :: second :: more]) : JoinsQualified text :=
  returns_two run fun _ _ _ facts => not_keepsQualified facts.1 facts.2 named changed

/-- A name may go on from a relation through a relationship column, and a relation whose columns nobody knows may be
called like one. -/
theorem qualified_names_joined : JoinsQualified "SELECT a.band.name FROM Album a" ∧
    JoinsQualified "SELECT band.name FROM Album, raw_t AS band" := by
  let c : Context := ⟨.ofLayer sampleLayer, sampleLayer⟩
  have through : ∃ q, readQuery "SELECT a.band.name FROM Album a" = .ok q ∧ ∃ q', c.compileRelationships q = .ok q' ∧
      loneNames q = some ([["a", "band", "name"]], ["a"]) ∧
      loneNames q' = some ([["a_band", "name"]], ["a", "a_band"]) := by
    decide +kernel
  have unknownColumns : ∃ q, readQuery "SELECT band.name FROM Album, raw_t AS band" = .ok q ∧
      ∃ q', c.compileRelationships q = .ok q' ∧ loneNames q = some ([["band", "name"]], ["Album", "band"]) ∧
        loneNames q' = some ([["Album_band", "name"]], ["Album", "Album_band", "band"]) := by
    decide +kernel
  exact ⟨joinsQualified_of_run through (by decide) (by decide),
    joinsQualified_of_run unknownColumns (by decide) (by decide)⟩

end Context

end SemanticLayer
