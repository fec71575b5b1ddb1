import SemanticLayer.Proofs.Dereferencing
import SemanticLayer.Proofs.Stages

/-! # Dereferences that survive compiling

The stage of relationships replaces every dotted name in a clause that goes through a relationship column. What
still does so in a compiled query has been written from the manifest later, or it goes through a column that
joining has brought into scope. The conditions of joins are not among the clauses: names in them are never replaced.
Main statement: `Context.compile_dereferences`.
-/

namespace SemanticLayer

open Sql List
open Judgement (always always_bind always_lift returns returns_bind returns_seq)

namespace Context

variable {c : Context} {q q' : Query} {s : Scope} {name : Path} {x : Query} {a : Clauses} {targets : List String}

/-- A relationship column that joining has brought into scope, or that is called like a joined model. -/
def Stray (c : Context) (f : Field) : Prop :=
  c.IsJoined f ∨ ∃ j : RelatedJoin, j.Declared c.layer ∧ f.name = j.label

/-- A name goes through a relationship column as it does in a query written from the manifest. -/
def AsWritten (c : Context) (s : Scope) (name : Path) (f : Field) (rest : DottedName) : Prop :=
  ∃ x s₀ a, c.Generated x ∧ c.Holds .written [] x s₀ a ∧ name ∈ a.names .written ∧ s₀.Grows c.IsJoined s ∧
    s₀.reference name.values = .ok (.through f rest)

/-- A name in some scope goes through a relationship column only if it is left over. -/
def Settles (c : Context) (s : Scope) (name : Path) : Prop :=
  ∀ f rest, s.reference name.values = .ok (.through f rest) → c.Stray f ∨ c.AsWritten s name f rest

/-- All names in the clauses of a query are settled. -/
def Settled (c : Context) (q : Query) : Prop :=
  ∀ s a, c.Holds .written [] q s a → ∀ name ∈ a.names .written, c.Settles s name

theorem settles_of_knows (known : s.Knows name.values) : c.Settles s name :=
  fun _ _ goes => absurd known (Scope.through_leadsOn goes).1

theorem settles_of_qualifies {name' : Path} (settles : c.Settles s name)
    (qualifies : s.Qualifies name name') : c.Settles s name' := by
  rcases qualifies with rfl | ⟨_, _, _, _, known⟩
  · exact settles
  · exact settles_of_knows known

theorem settles_of_grows {s' : Scope} (grows : s.Grows c.IsJoined s') (settles : c.Settles s name) :
    c.Settles s' name := by
  intro f rest goes
  by_cases joined : c.IsJoined f
  · exact .inl (.inl joined)
  · rcases settles f rest (grows.reference goes joined) with stray | ⟨x, s₀, a, generated, found⟩
    · exact .inl stray
    · obtain ⟨holds, member, earlier, before⟩ := found
      exact .inr ⟨x, s₀, a, generated, holds, member, earlier.trans grows, before⟩

/-- A column of a joined model is read through a relationship column only if that is called like the join. -/
theorem settles_label {j : RelatedJoin} (declared : j.Declared c.layer) (s : Scope) (column : String) :
    c.Settles s [.ofName j.label, .ofName column] := by
  intro f rest goes
  obtain ⟨_, _, head, answers, split, nonempty, more⟩ := Scope.relationship_of_through goes
  refine .inl (.inr ⟨j, declared, ?_⟩)
  -- Only the label can stand before the rest.
  have single : head = [j.label] := by
    simp only [Path.values, map_cons, map_nil, Ident.ofName_value] at split
    have length := congrArg length split
    have behind := length_pos_iff.mpr more
    rcases head with _ | ⟨first, _ | ⟨second, others⟩⟩
    · exact absurd rfl nonempty
    · rw [singleton_append, cons.injEq] at split
      rw [split.1]
    · simp only [length_append, length_cons, length_nil] at length
      omega
  rw [single] at answers
  simp only [Field.answersTo, DottedName.suffix, getLast?_singleton, Option.getD_some, Bool.and_eq_true,
    beq_iff_eq] at answers
  exact answers.1.symm

theorem settled_of_generated (generated : c.Generated x) : c.Settled x :=
  fun s a holds _ member _ _ goes => .inr ⟨x, s, a, generated, holds, member, .refl _ s, goes⟩

theorem Settled.fromCondition (new : c.FromCondition .written s a) : ∀ name ∈ a.names .written, c.Settles s name := by
  intro name' member'
  obtain ⟨x, b, inside, holds, qualified⟩ := new
  obtain ⟨name, member, qualifies⟩ := qualified.back name' member'
  exact settles_of_qualifies (settled_of_generated (.condition inside) s b holds name member) qualifies

/-- Replacing dereferences settles a query, whatever it was before. -/
theorem settled_of_joinRelationships (joins : c.joinRelationships q = .ok (q', targets)) : c.Settled q' := by
  intro s' a' holds' name' member'
  have transfers := joinQuery_transfers .written (dereferences_sound c.layer) (dereferences_tidy c.layer) joins
  rcases transfers.back s' a' holds' with ⟨s, a, _, linked⟩ | new
  · obtain ⟨name, _, becomes⟩ := linked.becomes.2 name' member'
    cases becomes with
    | kept unrelated =>
      intro f rest goes
      by_cases joined : c.IsJoined f
      · exact .inl (.inl joined)
      · exact absurd (linked.grows.reference goes joined) (unrelated f rest)
    | qualified known => exact settles_of_knows known
    | joined _ asks => exact settles_label ⟨_, asks⟩ s' _
  · exact Settled.fromCondition new name' member'

theorem Settled.push {l : Layer} {name : String} {body : Query} (settled : c.Settled q) (inside : c.Settled body) :
    c.Settled (With.push l name body q) := by
  intro s a holds
  rcases holds_push.mp holds with before | added
  · exact settled s a before
  · exact inside s a added

theorem Settled.sort (settled : c.Settled q) : c.Settled (With.sort q) :=
  fun s a holds => settled s a (holds_sort.mp holds)

theorem Settled.pushed {fits : String → Query → Prop} (settled : c.Settled q)
    (writes : ∀ name body, fits name body → ∃ required, c.Writes required name body)
    (pushed : With.Pushed c.layer fits q q') : c.Settled q' := by
  refine pushed.keeps (fun q name body fit settled => settled.push ?_) settled
  obtain ⟨required, writes⟩ := writes name body fit
  cases writes with
  | model writes =>
    obtain ⟨m, sql, found, written, read⟩ := writes
    exact settled_of_generated (.model (mem_of_find?_eq_some found) written read)
  | metric _ _ _ joins => exact settled_of_joinRelationships joins
  | cumulativeMetric _ found written read =>
    exact settled_of_generated (.cumulativeMetric (mem_of_find?_eq_some found) written read)

theorem Settled.addModels (settled : c.Settled q) (models : List String) :
    returns.holds (addModels c.layer models q) c.Settled :=
  returns.mono (addModels_pushed c.layer models q) fun _ h =>
    settled.pushed (fun _ _ writes => ⟨none, .model writes⟩) h.1

section GroupKeys

variable {l : Layer}

def IsJoinedKey (l : Layer) (name : Path) : Prop :=
  ∃ j : RelatedJoin, j.Declared l ∧ ∃ key, name = [.ofName j.label, .ofName key]

theorem expandedKeys_names {items : List (SelectItem Query)} {keys keys' : List (Expr Query)}
    {joins : List RelatedJoin} (done : KeysExpanded l items s keys keys' joins) :
    ∀ name ∈ keys'.flatMap Expr.names, name ∈ keys.flatMap Expr.names ∨ IsJoinedKey l name := by
  induction done with
  | nil => simp
  | key _ _ join _ _ _ ih =>
    simp only [flatMap_cons, Expr.names, mem_append, mem_singleton]
    rintro name (rfl | old | later)
    · exact .inr ⟨_, ⟨_, join⟩, _, rfl⟩
    · exact .inl (.inl old)
    · exact (ih name later).imp_left .inr
  | other _ _ ih =>
    simp only [flatMap_cons, mem_append]
    rintro name (old | later)
    · exact .inl (.inl old)
    · exact (ih name later).imp_left .inr

theorem groupKeyJoins_tidy (l : Layer) : Tidy (groupKeyJoins l) := by
  intro a s
  refine returns.mono (groupKeyJoins_expands l a s) ?_
  rintro ⟨_, joins⟩ (⟨_, _, same⟩ | ⟨keys, modifiers, keys', grouped, done, rfl⟩)
  · cases same
    exact ⟨.refl a, fun _ => rfl⟩
  · refine ⟨⟨rfl, rfl, rfl⟩, fun reach => ?_⟩
    rw [Clauses.queries_eq, Clauses.queries_eq]
    simp only [Select.clauseQueries, grouped, GroupBy.queries, done.queries]

theorem groupKeyJoins_names (a : Clauses) (s : Scope) : returns.holds (groupKeyJoins l a s) fun r =>
    ∀ name ∈ r.1.names .written, name ∈ a.names .written ∨ IsJoinedKey l name := by
  refine returns.mono (groupKeyJoins_expands l a s) ?_
  rintro ⟨_, joins⟩ (⟨_, _, same⟩ | ⟨keys, modifiers, keys', grouped, done, rfl⟩)
  · cases same
    exact fun _ => .inl
  · intro name member
    have inKeys := expandedKeys_names done name
    simp only [Clauses.names, Clauses.exprs, Select.exprs, grouped, GroupBy.exprList, flatMap_append,
      mem_append] at member ⊢
    tauto

theorem Settled.joinGroupKeys (settled : c.Settled q)
    (joins : c.joinQuery (groupKeyJoins c.layer) q = .ok (q', targets)) : c.Settled q' := by
  intro s' a' holds' name' member'
  have transfers := joinQuery_transfers .written (groupKeyJoins_sound c.layer) (groupKeyJoins_tidy c.layer) joins
  rcases transfers.back s' a' holds' with ⟨s, a, holds, linked⟩ | new
  · obtain ⟨b, b', joins, same, found, qualified⟩ := linked.found
    obtain ⟨name, member, qualifies⟩ := qualified.back name' member'
    refine settles_of_qualifies ?_ qualifies
    rcases groupKeyJoins_names b s _ found name member with old | ⟨j, declared, key, rfl⟩
    · exact settles_of_grows linked.grows (settled s a holds name (same .written ▸ old))
    · exact settles_label declared s' key
  · exact Settled.fromCondition new name' member'

end GroupKeys

section Rollups

/-- A SELECT with the same scope and the same names. -/
def SameNames (s s' : Scope) (a a' : Clauses) : Prop := s' = s ∧ a'.names .written = a.names .written

/-- A SELECT with the names of one in the query of a roll-up. -/
def FromRollup (c : Context) (s : Scope) (a : Clauses) : Prop :=
  ∃ x b, c.Generated x ∧ c.Holds .written [] x s b ∧ a.names .written = b.names .written

/-- The SELECTs of a query keep their scopes and names when roll-ups are replaced. -/
def Rolls (c : Context) (q q' : Query) : Prop :=
  ∀ scope, c.Transfers .written SameNames c.FromRollup scope scope q q'

variable {nested : Query → StateT (List Metric) (Except CompileError) Query}

theorem FromRollup.of_rolls {x' : Query} (generated : c.Generated x) (rolls : c.Rolls x x') (s : Scope) (a : Clauses)
    (holds : c.Holds .written [] x' s a) : c.FromRollup s a := by
  rcases (rolls []).back s a holds with ⟨_, b, inside, rfl, same⟩ | new
  · exact ⟨x, b, generated, inside, same⟩
  · exact new

theorem replaceRollup_stands (visits : ∀ q, always.holds (nested q) (c.Rolls q)) (r : Relation Query) :
    always.holds (c.replaceRollup nested r)
      (c.Stands .written Eq (fun x => ∀ s b, c.Holds .written [] x s b → c.FromRollup s b) r) := by
  unfold replaceRollup
  split
  · rename_i name args ordinality label hints
    split
    · exact always.pure (.refl _ _ _)
    · refine always.bind always_lift fun rollup =>
        always.bind always_lift fun query =>
        always_bind fun _ => always.bind (visits query) fun query' => always.pure ?_
      intro rolls read resolved
      have generated : c.Generated query := .rollup (Rollup.resolve_eq_ok resolved).1 read
      refine ⟨by rw [relationFields, relationFields], ⟨fun _ _ => .inr rfl, nofun⟩, fun _ _ => .inr rfl, ?_⟩
      intro x member
      cases mem_singleton.mp member
      exact .inr (FromRollup.of_rolls generated rolls)
  · exact always.pure (.refl _ _ _)

/-- A walked SELECT: its expressions keep their names, and its FROM clause is walked. -/
structure WalkedSelect (c : Context) (related : Query → Query → Prop) (new : Query → Prop) (a a' : Clauses) : Prop where
  exprs : Forall₂ (Expr.Renamed Eq related) (a.exprs .written) (a'.exprs .written)
  source : c.Walked .written related new a.select.source a'.select.source

variable {related : Query → Query → Prop} {new : Query → Prop} {σ : Type}
  {w : Expr.Walk (StateT σ (Except CompileError)) Query Query}
  {visit : Relation Query → StateT σ (Except CompileError) (Relation Query)}

theorem walk_select (renames : w.Renames always Eq related)
    (visits : ∀ r, always.holds (visit r) (c.Stands .written Eq new r)) (s : Select Query) :
    always.holds (s.walk w visit) fun s' =>
      Forall₂ (Expr.Renamed Eq related) (s.exprs .written) (s'.exprs .written) ∧
        c.Walked .written related new s.source s'.source := by
  let J : Judgement (StateT σ (Except CompileError)) := always
  unfold Select.walk
  have each : ∀ e : Expr Query, J.holds (e.walk w) (e.Renamed Eq related) := Expr.walk_renamed renames
  refine always_bind fun _ =>
    J.bind (J.mapM (fun item => Clauses.walkItem_lifts fun e _ => each e) s.items) fun _ =>
    J.bind (walk_source renames visits s.source) fun _ => always_bind fun _ =>
    J.bind (Clauses.walkOption_lifts fun e _ => each e) fun _ =>
    J.bind (Clauses.walkGroupBy_lifts fun e _ => each e) fun _ => always_bind fun _ =>
    J.bind (Clauses.walkOption_lifts fun e _ => each e) fun _ => always_bind fun _ =>
    J.bind (Clauses.walkOption_lifts fun e _ => each e) fun _ => always_bind fun _ => J.pure ?_
  intro qualify having groupBy filter source items
  have listed := rel_flatMap items fun _ _ h => h.2 .written
  exact ⟨rel_append (rel_append (rel_append (rel_append listed filter) groupBy) having) qualify, source⟩

/-- A walk visits the SELECTs of a body one by one, whatever ORDER BY the body has. -/
theorem walk_body (renames : w.Renames always Eq related)
    (visits : ∀ r, always.holds (visit r) (c.Stands .written Eq new r)) :
    ∀ b : Body Query, always.holds (b.walk w visit) fun b' =>
      (∀ orderBy orderBy' : List (OrderItem Query),
        Forall₂ (Expr.Renamed Eq related) (orderBy.map (·.expr)) (orderBy'.map (·.expr)) →
          Forall₂ (c.WalkedSelect related new) (b.selects orderBy) (b'.selects orderBy')) ∧
        Forall₂ related b.operands b'.operands
  | .select s => by
    rw [Body.walk]
    refine always.bind (walk_select renames visits s) fun s' => always.pure ?_
    rintro ⟨exprs, source⟩
    refine ⟨fun orderBy orderBy' ordered => .cons ⟨?_, source⟩ .nil, .nil⟩
    exact rel_append exprs ordered
  | .query q => by
    rw [Body.walk]
    exact always.bind (renames.query q) fun _ => always.pure fun h =>
      ⟨fun _ _ _ => .nil, .cons h .nil⟩
  | .setOp word left right => by
    rw [Body.walk]
    refine always.bind (walk_body renames visits left) fun left' =>
      always.bind (walk_body renames visits right) fun right' => always.pure ?_
    rintro ⟨rights, rightOperands⟩ ⟨lefts, leftOperands⟩
    exact ⟨fun _ _ _ => rel_append (lefts [] [] .nil) (rights [] [] .nil), rel_append leftOperands rightOperands⟩
  | .values rows _ => by
    rw [Body.walk]
    exact always_bind fun _ => always.pure ⟨fun _ _ _ => .nil, .nil⟩
  | .table name => by
    rw [Body.walk]
    exact always.pure ⟨fun _ _ _ => .nil, .nil⟩
  | .write b => by
    rw [Body.walk]
    exact always_bind fun _ => always.pure ⟨fun _ _ _ => .nil, .nil⟩

theorem WalkedSelect.transfers {a' : Clauses} (walked : c.WalkedSelect c.Rolls
    (fun x => ∀ s b, c.Holds .written [] x s b → c.FromRollup s b) a a') (scope : Scope) :
    c.TransfersSelect .written SameNames c.FromRollup scope scope a a' := by
  have frame : c.frame a' = c.frame a := by
    unfold frame
    rw [walked.source.fields]
  have names : Forall₂ Eq (a.names .written) (a'.names .written) :=
    rel_flatMap walked.exprs fun _ _ h => h.names
  have queries : Forall₂ c.Rolls (a.queries .written) (a'.queries .written) :=
    rel_flatMap walked.exprs fun _ _ h => h.queries
  rw [forall₂_eq_eq_eq] at names
  refine ⟨⟨by rw [frame], names.symm⟩, ?_, walked.source.inner.mono fun _ _ _ rolls => rolls []⟩
  rw [frame]
  exact .of_pairs (queries.imp fun _ _ rolls => rolls _)

theorem replaceRollupsUpTo_rolls : ∀ (n : Nat) (q : Query), always.holds (c.replaceRollupsUpTo n q) (c.Rolls q)
  | 0, _ => by
    intro _ _ _ returned
    cases returned
  | n + 1, q => by
    have rolls := replaceRollupsUpTo_rolls n
    have renames := (Expr.Walk.keep_keeps rolls).renames
    have visits := replaceRollup_stands rolls
    have entry : ∀ cte : Cte Query, always.holds
        (do let query ← c.replaceRollupsUpTo n cte.query; return { cte with query })
        fun cte' : Cte Query => c.Rolls cte.query cte'.query :=
      fun cte => always.bind (rolls cte.query) fun _ => always.pure id
    rw [replaceRollupsUpTo]
    unfold Query.walk
    refine always.bind (always.mapM entry q.ctes) fun ctes =>
      always.bind (walk_body renames visits q.body) fun body =>
      always.bind (Clauses.walkOrder_exprs renames q.orderBy) fun orderBy =>
      always_bind fun _ => always_bind fun _ => always.pure ?_
    rintro ordered ⟨selects, operands⟩ entries scope
    refine .of_parts ?_ (operands.imp fun _ _ rolls => rolls scope) (entries.imp fun _ _ rolls => rolls scope)
    exact (selects _ _ ordered).imp fun _ _ walked => walked.transfers scope

theorem Settled.replaceRollups {metrics : List Metric} (settled : c.Settled q)
    (replaces : c.replaceRollups q = .ok (q', metrics)) : c.Settled q' := by
  intro s a holds name member
  have rolls := replaceRollupsUpTo_rolls _ q [] q' metrics replaces
  rcases (rolls []).back s a holds with ⟨_, b, before, rfl, same⟩ | ⟨x, b, generated, inside, same⟩
  · exact settled s b before name (same ▸ member)
  · exact settled_of_generated generated s b inside name (same ▸ member)

end Rollups

section Stages

theorem settled_of_compileRelationships (q : Query) : returns.holds (c.compileRelationships q) c.Settled := by
  have joins : returns.holds (c.joinRelationships q) fun r => c.joinRelationships q = .ok r := fun _ h => h
  unfold compileRelationships
  refine returns_bind joins fun (joined, targets) joins => ?_
  refine returns_bind ((settled_of_joinRelationships joins).addModels targets) fun _ added => ?_
  exact returns.pure added.sort

theorem Settled.compileMetrics (settled : c.Settled q) : returns.holds (c.compileMetrics q) c.Settled := by
  intro q' compiled
  obtain ⟨a, rolledUp, q₁, q₂, q₃, run, rfl⟩ := compileMetrics_run q q' compiled
  have measured := settled.pushed (fun _ _ => WritesFor.writes) run.found
  exact ((measured.replaceRollups run.replaces).pushed (fun _ _ writes => ⟨none, writes⟩) run.bases).sort

theorem Settled.compileGroupKeys (settled : c.Settled q) : returns.holds (c.compileGroupKeys q) c.Settled := by
  have joins : returns.holds (c.joinQuery (groupKeyJoins c.layer) q) fun r =>
      c.joinQuery (groupKeyJoins c.layer) q = .ok r := fun _ h => h
  unfold Context.compileGroupKeys
  refine returns_bind joins fun (joined, targets) joins => ?_
  refine returns_bind ((settled.joinGroupKeys joins).addModels targets) fun _ added => ?_
  exact returns.pure added.sort

theorem compile_settled (q : Query) : returns.holds (c.compile q) c.Settled := by
  simp only [compile, Stage.all, foldlM_cons, foldlM_nil, runStage, bind_pure]
  refine returns_seq fun q₁ => returns_bind (settled_of_compileRelationships q₁)
    fun q₂ related => returns_bind related.compileMetrics fun q₃ measured => ?_
  exact measured.compileGroupKeys

end Stages

/-- A name in a clause of a compiled query that goes through a relationship column either goes through one that
joining has brought into scope, or that is called like a joined model; or it stands like this in a query written from
the manifest, where it went through the same column. Nothing is said of names in ON: a dereference there stays. -/
theorem compile_dereferences {s : Scope} {a : Clauses} {name : Path} {f : Field} {rest : DottedName}
    (compiled : c.compile q = .ok q') (holds : c.Holds .written [] q' s a) (named : name ∈ a.names .written)
    (goes : s.reference name.values = .ok (.through f rest)) :
    (c.IsJoined f ∨ ∃ j : RelatedJoin, j.Declared c.layer ∧ f.name = j.label) ∨
      ∃ x s₀ a₀, c.Generated x ∧ c.Holds .written [] x s₀ a₀ ∧ name ∈ a₀.names .written ∧
        s₀.Grows c.IsJoined s ∧ s₀.reference name.values = .ok (.through f rest) :=
  compile_settled q q' compiled s a holds name named f rest goes

def byBandManifest : Manifest where
  catalog := "mdl"
  schema := "test"
  models :=
    [{ name := "Album", refSql := some "select * from album", columns :=
         [Manifest.plainColumn "id" "integer", Manifest.plainColumn "day" "date",
          Manifest.plainColumn "bandId" "integer",
          { name := "band", typeName := "Band", relationship := some "AlbumBand" }] },
     Manifest.sampleBand]
  relationships := Manifest.sample.relationships
  metrics :=
    [{ name := "ByBand", baseObject := "Album",
       dimension := [Manifest.expressionColumn "bandName" "varchar" "band.name"],
       measure := [Manifest.expressionColumn "n" "integer" "count(*)"],
       timeGrain := [{ name := "day", refColumn := "day", dateParts := [.year] }] }]

def byBandLayer : Layer := ⟨byBandManifest, by decide +kernel⟩

/-- The roll-up of a metric keeps a dimension that goes through a relationship column. -/
theorem rollup_dereference_survives : ∃ q q' s a name f, readQuery "SELECT * FROM roll_up(ByBand, day, YEAR)" = .ok q ∧
    compile ⟨.ofLayer byBandLayer, byBandLayer⟩ q = .ok q' ∧
    Holds ⟨.ofLayer byBandLayer, byBandLayer⟩ .written [] q' s a ∧ name ∈ a.names .written ∧
    name.values = ["band", "name"] ∧ s.reference name.values = .ok (.through f ["name"]) ∧
    (Stray ⟨.ofLayer byBandLayer, byBandLayer⟩ f ∨
      AsWritten ⟨.ofLayer byBandLayer, byBandLayer⟩ s name f ["name"]) := by
  let c : Context := ⟨.ofLayer byBandLayer, byBandLayer⟩
  let band : Field :=
    { table := ⟨"mdl", "test", "Album"⟩, column := "band", name := "band", typeName := "Band",
      relationship := some "AlbumBand", target := some "Band" }
  have run : ∃ q, readQuery "SELECT * FROM roll_up(ByBand, day, YEAR)" = .ok q ∧ ∃ q', c.compile q = .ok q' ∧
      ∃ outer ∈ q'.body.selects q'.orderBy, ∃ x ∈ outer.inner .written, ∃ a ∈ x.body.selects x.orderBy,
        ∃ name ∈ a.names .written, name.values = ["band", "name"] ∧
          (Scope.reference [c.frame a] name.values).toOption = some (.through band ["name"]) := by
    set_option synthInstance.maxSize 256 in decide +kernel
  obtain ⟨q, read, q', compiled, outer, isOuter, x, nested, a, isInner, name, member, values, goes⟩ := run
  rw [toOption_eq_some_iff] at goes
  have holds : c.Holds .written [] q' [c.frame a] a := .source isOuter nested (.here isInner)
  exact ⟨q, q', _, a, name, band, read, compiled, holds, member, values, goes,
    compile_dereferences compiled holds member goes⟩

end Context

end SemanticLayer
