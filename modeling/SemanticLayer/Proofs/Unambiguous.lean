import SemanticLayer.Proofs.Deciding
import SemanticLayer.Proofs.GuardedJoins
import SemanticLayer.Proofs.SafeQueries

/-! # Joins without ambiguity

Where names are guarded, joining related models makes none of them ambiguous. The compiled query can be analyzed, and
there is nothing left in it to be joined.
-/

namespace SemanticLayer

open Sql

/-- A metric that is read, or rolled up. -/
inductive Finding.OfMetric : Finding → Prop
  | read (name : String) : OfMetric (.object .metric name)
  | rolledUp (r : Rollup) : OfMetric (.rollup r)

/-- A word by which queries get at metrics. -/
def Layer.Measures (l : Layer) (word : String) : Prop :=
  l.kind? word = some .metric ∨ word.map Char.toLower = "roll_up"

instance (l : Layer) (word : String) : Decidable (l.Measures word) :=
  inferInstanceAs (Decidable (l.kind? word = some .metric ∨ word.map Char.toLower = "roll_up"))

namespace Context

def modelTexts (c : Context) : List Query :=
  c.layer.manifest.models.filterMap fun m => (m.sql c.layer >>= readQuery).toOption

/-- The layer brings no metrics into a query: neither the texts of models nor the conditions of relationships get at
them. -/
@[mk_iff]
structure Unmeasured (c : Context) : Prop where
  texts : ∀ x ∈ c.modelTexts, ∀ word ∈ x.relations, ¬ c.layer.Measures word
  conditions : ∀ r ∈ c.layer.manifest.relationships, ∀ e ∈ (Expr.parseItem r.condition).toOption, e.queries = []

instance (c : Context) : Decidable c.Unmeasured := decidable_of_iff _ c.unmeasured_iff.symm

/-- A query with the texts of some models as further entries, in any order. -/
structure Enlarged (c : Context) (q q' : Query) : Prop where
  rest : With.SameBody q q'
  entries : ∀ cte ∈ q'.ctes, cte ∈ q.ctes ∨ With.nameOf cte ∉ With.names q ∧ cte.query ∈ c.modelTexts
  nodup : (With.names q).Nodup → (With.names q').Nodup

variable {c : Context} {targets : List String} {written q q' joined : Query}

section Noting

variable {find : JoinFinder} {known : String → Prop}

abbrev noting (known : String → Prop) : Judgement Joiner :=
  Judgement.returns.keeping fun targets : List String => ∀ target ∈ targets, known target

theorem joinOwned_notes (scope : Scope) {joins : List RelatedJoin} (a : Clauses)
    (asked : ∀ j ∈ joins, known j.target) : (noting known).holds (c.joinOwned scope joins a) fun _ => True := by
  unfold joinOwned
  refine Judgement.ite _ (Judgement.pure _ trivial) ?_
  refine Judgement.bind _ (Judgement.keeping_lift (p := fun _ => True) fun _ _ => trivial) fun _ =>
    Judgement.bind _ (Judgement.keeping_modify fun targets noted target member => ?_) fun _ =>
    Judgement.pure _ fun _ _ => trivial
  rcases foldl_insertName.mp member with old | ⟨j, listed, rfl⟩
  · exact noted target old
  · exact asked j listed

theorem allows_noting : c.Allows (noting known) fun j => known j.target where
  sure h hf s r returned kept := by
    obtain ⟨⟨a, s₁⟩, first, second⟩ := bind_eq_ok_iff.mp returned
    obtain ⟨kept, ha⟩ := h s (a, s₁) first kept
    exact hf a ha s₁ r second kept
  lift := Judgement.keeping_lift fun _ => id
  owned := joinOwned_notes

theorem joinQuery_notes (finds : find.Finds fun j => known j.target)
    (joins : c.joinQuery find q = .ok (q', targets)) : ∀ target ∈ targets, known target := by
  have run := joinQuery_eq_ok joins
  exact (joinQueryUpTo_leaves allows_noting finds q.height [] q [] _ run (List.forall_mem_nil _)).1

end Noting

section Enlarging

theorem mem_modelTexts {m : Model} {sql : String} {x : Query} (member : m ∈ c.layer.manifest.models)
    (written : m.sql c.layer = .ok sql) (read : readQuery sql = .ok x) : x ∈ c.modelTexts := by
  refine List.mem_filterMap.mpr ⟨m, member, ?_⟩
  rw [written]
  exact toOption_eq_some_iff.mpr read

theorem addModels_enlarges (models : List String) (q : Query) :
    Judgement.returns.holds (addModels c.layer models q) (c.Enlarged q) := by
  have kept : Judgement.returns.holds (addModels c.layer models q) fun q' =>
      ∀ cte ∈ q'.ctes, cte ∈ q.ctes ∨ cte.query ∈ c.modelTexts := by
    refine addModels_keeps (fun before name m sql body member written read kept cte listed => ?_) models q fun _ => .inl
    rcases List.mem_cons.mp (With.push_perm.mem_iff.mp listed) with rfl | old
    · exact .inr (mem_modelTexts member written read)
    · exact kept cte old
  intro q' adds
  have added := (addModels_added c.layer models q q' adds).1
  refine ⟨added.rest, fun cte member => (added.new cte member).imp_right fun ⟨fresh, _⟩ => ⟨fresh, ?_⟩, added.nodup⟩
  exact (kept q' adds cte member).resolve_left fun old => fresh (With.mem_names_of_mem old)

theorem Enlarged.sort (enlarged : c.Enlarged q q') : c.Enlarged q (With.sort q') := by
  have reordered := With.sort_reordered q'
  refine ⟨enlarged.rest.trans reordered.rest, fun cte member => ?_, fun distinct => ?_⟩
  · exact enlarged.entries cte (reordered.perm.mem_iff.mp member)
  · exact reordered.names_perm.nodup_iff.mpr (enlarged.nodup distinct)

theorem compileModels_enlarges (models : c.compileModels written = .ok q) :
    ∃ opened a, c.analyze opened = .ok a ∧ c.Enlarged opened q := by
  unfold compileModels at models
  obtain ⟨opened, _, rest⟩ := bind_eq_ok_iff.mp models
  obtain ⟨a, analyzed, rest⟩ := bind_eq_ok_iff.mp rest
  obtain ⟨added, adds, returned⟩ := bind_eq_ok_iff.mp rest
  cases returned
  exact ⟨opened, a, analyzed, (addModels_enlarges a.models opened added adds).sort⟩

theorem compileRelationships_eq_ok : c.compileRelationships q = .ok q' ↔ ∃ joined targets added,
    c.joinRelationships q = .ok (joined, targets) ∧ addModels c.layer targets joined = .ok added ∧
      q' = With.sort added := by
  unfold compileRelationships
  rw [bind_eq_ok_iff]
  constructor
  · rintro ⟨⟨joined, targets⟩, joins, rest⟩
    obtain ⟨added, adds, returned⟩ := bind_eq_ok_iff.mp rest
    cases returned
    exact ⟨joined, targets, added, joins, adds, rfl⟩
  · rintro ⟨joined, targets, added, joins, adds, rfl⟩
    exact ⟨(joined, targets), joins, bind_eq_ok_iff.mpr ⟨added, adds, rfl⟩⟩

theorem compileRelationships_enlarges (joins : c.joinRelationships q = .ok (joined, targets))
    (compiled : c.compileRelationships q = .ok q') : c.Enlarged joined q' := by
  obtain ⟨joined', targets', added, joins', adds, rfl⟩ := compileRelationships_eq_ok.mp compiled
  rw [joins] at joins'
  cases joins'
  exact (addModels_enlarges targets joined added adds).sort

theorem Enlarged.mentions {reach : Reach} {mention : Mention} (enlarged : c.Enlarged q q')
    (mentions : q'.Mentions reach mention) :
    q.Mentions reach mention ∨ ∃ x ∈ c.modelTexts, x.Mentions reach mention := by
  rw [Query.mentions_iff, enlarged.rest.body, enlarged.rest.inner_eq] at mentions
  rcases mentions with here | inner | ⟨cte, member, mentions⟩
  · exact .inl (Query.mentions_iff.mpr (.inl here))
  · exact .inl (Query.mentions_iff.mpr (.inr (.inl inner)))
  · rcases enlarged.entries cte member with old | ⟨_, text⟩
    · exact .inl (Query.mentions_iff.mpr (.inr (.inr ⟨cte, old, mentions⟩)))
    · exact .inr ⟨cte.query, text, mentions⟩

theorem Enlarged.safe {rule : Scope → Scope → Path → Prop} (enlarged : c.Enlarged q q')
    (safe : c.Safe targets rule [] q)
    (added : ∀ cte ∈ q'.ctes, With.nameOf cte ∉ With.names q → c.Safe targets rule [] cte.query) :
    c.Safe targets rule [] q' := by
  have level := safe.level
  obtain ⟨body, orderBy, _, _⟩ := enlarged.rest
  have loose : q'.looseOrder = q.looseOrder := by rw [Query.looseOrder, Query.looseOrder, body, orderBy]
  refine .of_parts ⟨⟨?_, enlarged.nodup level.accepted.2⟩, .inr .nil, ?_, ?_, ?_⟩ ?_ ?_ fun cte member => ?_
  · rw [body]
    exact level.accepted.1
  · rw [body, loose]
    exact level.loose
  · rw [body, orderBy]
    exact level.alone
  · rw [body, orderBy]
    exact level.selects
  · rw [body, orderBy]
    exact fun a member => safe.holding member
  · rw [body]
    exact fun x member => safe.operand member
  · rcases enlarged.entries cte member with old | ⟨fresh, _⟩
    · exact safe.entry old
    · exact added cte member fresh

end Enlarging

theorem joinRelationships_safe (joins : c.joinRelationships q = .ok (joined, targets))
    (safe : c.Safe targets (c.Guarded targets) [] q) : c.Safe targets (c.Secure targets) [] joined := by
  have guards := (joinQueryUpTo_guarded q.height [] q [] _ _ (joinQuery_eq_ok joins)).2 fun _ member => member
  exact (guards nil_named .nil ⟨safe, Nat.le_refl _⟩).safe

section Metrics

variable {bound : List String} {mention : Mention} {finding : Finding}

theorem Means.measures (means : c.Means bound mention finding) (metric : finding.OfMetric) :
    ∃ word, mention.name.values.getLast? = some word ∧ c.layer.Measures word := by
  cases metric with
  | read name =>
    cases means with
    | object named object => exact ⟨_, last_of_tableName named, .inl (layer_kind_of_kind object)⟩
  | rolledUp r =>
    cases means with
    | @rollup name _ _ named =>
      unfold Rollup.isName at named
      split at named
      · rename_i part
        exact ⟨part.value, rfl, .inr (beq_iff_eq.mp named)⟩
      · cases named

theorem Means.not_joined {target : String} (model : (c.layer.model? target).isSome)
    (means : c.Means bound (.table [.ofName target]) finding) : ¬ finding.OfMetric := by
  intro metric
  cases means with
  | physical => cases metric
  | object named object =>
    cases metric
    obtain ⟨m, found⟩ := Option.isSome_iff_exists.mp model
    have last := last_of_tableName named
    rw [Path.values, List.map_singleton, Ident.ofName_value, List.getLast?_singleton, Option.some.injEq] at last
    have kind := layer_kind_of_kind object
    rw [← last, Layer.kind_of_model found] at kind
    cases kind

theorem Unmeasured.no_condition (unmeasured : c.Unmeasured) {j : RelatedJoin} (declared : j.Declared c.layer) :
    j.condition.queries = [] := by
  obtain ⟨r, member, e, parsed, pairs⟩ := declared.relationship
  rw [unmeasured.conditions r member e (toOption_eq_some_iff.mpr parsed)] at pairs
  exact List.forall₂_nil_left_iff.mp pairs

theorem Unmeasured.enlarging (unmeasured : c.Unmeasured) (enlarged : c.Enlarged q q')
    (mentions : q'.Mentions .visited mention) (means : c.Means bound mention finding) (metric : finding.OfMetric) :
    q.Mentions .visited mention := by
  rcases enlarged.mentions mentions with kept | ⟨x, text, mentions⟩
  · exact kept
  · obtain ⟨word, last, measures⟩ := means.measures metric
    exact absurd measures (unmeasured.texts x text word (mentions.mem_relations last))

theorem Unmeasured.joining (unmeasured : c.Unmeasured) (joins : c.joinRelationships q = .ok (joined, targets))
    (mentions : joined.Mentions .visited mention) (means : c.Means bound mention finding)
    (metric : finding.OfMetric) : q.Mentions .visited mention := by
  have follows := (joinQuery_alike (dereferences_sound c.layer) .visited joins).follows
  have models : ∀ target ∈ targets, (c.layer.model? target).isSome :=
    joinQuery_notes (dereferences_finds_models c.layer) joins
  rcases follows.back mentions with ⟨_, before, rfl⟩ | ⟨target, member, rfl⟩ | ⟨j, declared, x, member, _⟩
  · exact before
  · exact absurd metric (means.not_joined (models target member))
  · rw [unmeasured.no_condition declared] at member
    cases member

/-- All metrics of the compiled query were there when models were compiled, so none is both read and rolled up. -/
theorem Unmeasured.checkRollups (unmeasured : c.Unmeasured) (models : c.compileModels written = .ok q)
    (joins : c.joinRelationships q = .ok (joined, targets)) (enlarged : c.Enlarged joined q')
    (passes : c.PassAll (c.sites q' [])) : (c.gathered q').checkRollups = .ok () := by
  obtain ⟨opened, a, analyzed, opens⟩ := compileModels_enlarges models
  have before : ∀ finding, finding.OfMetric → (c.gathered q').Found finding → a.Found finding := by
    intro finding metric found
    obtain ⟨bound, mention, reads, means⟩ := (found_gathered passes).mp found
    have inJoined := unmeasured.enlarging enlarged reads.mentions means metric
    have inQuery := unmeasured.joining joins inJoined means metric
    refine found_of_mentions analyzed (unmeasured.enlarging opens inQuery means metric) means ?_
    rintro table rfl
    cases metric
  obtain ⟨_, checked, rfl⟩ := analyze_eq_ok.mp analyzed
  rw [Analysis.checkRollups_eq_ok] at checked ⊢
  exact fun r rolled read => checked r (before _ (.rolledUp r) rolled) (before _ (.read _) read)

end Metrics

theorem compileRelationships_safe (safe : c.Safe targets (c.Secure targets) [] q) (sorted : With.sort q = q) :
    c.compileRelationships q = .ok q := by
  have rests := joinQueryUpTo_safe q.height q [] safe .nil
  have joins : c.joinRelationships q = .ok (q, []) := by
    rw [joinRelationships, joinQuery, rests]
    rfl
  exact compileRelationships_eq_ok.mpr ⟨q, [], q, joins, rfl, sorted.symm⟩

/-- Joining related models introduces no ambiguity where names are guarded against the columns of these models, and the
names in the entries that are added are secure. Then the compiled query can be analyzed, compiling relationships does
not change it any more, and every name in it can be looked up and goes through no relationship. -/
theorem compileRelationships_unambiguous (c : Context) (written q joined q' : Query) (targets : List String)
    (models : c.compileModels written = .ok q) (joins : c.joinRelationships q = .ok (joined, targets))
    (compiled : c.compileRelationships q = .ok q') (unmeasured : c.Unmeasured)
    (guarded : c.Safe targets (c.Guarded targets) [] q)
    (added : ∀ cte ∈ q'.ctes, With.nameOf cte ∉ With.names q → c.Safe targets (c.Secure targets) [] cte.query) :
    (∃ a', c.analyze q' = .ok a') ∧ c.compileRelationships q' = .ok q' ∧
      ∀ s b, c.Holds .written [] q' s b → (∀ e ∈ b.select.exprs .written, ∀ name ∈ e.names, s.Clear name.values) ∧
        ∀ e ∈ b.exprs .written, ∀ name ∈ e.names, ∀ f rest, s.reference name.values ≠ .ok (.through f rest) := by
  have enlarged := compileRelationships_enlarges joins compiled
  have names := (joinQuery_alike (dereferences_sound c.layer) .visited joins).names_eq
  have safe : c.Safe targets (c.Secure targets) [] q' :=
    enlarged.safe (joinRelationships_safe joins guarded) (names ▸ added)
  refine ⟨?_, ?_, fun s b holds => ?_⟩
  · have passes : c.PassAll (c.sites q' []) := sitesAt_safe q'.height q' [] safe .nil [] fun _ => rfl
    exact ⟨_, analyze_eq_ok.mpr ⟨passes, unmeasured.checkRollups models joins enlarged passes, rfl⟩⟩
  · obtain ⟨_, _, unsorted, _, _, rfl⟩ := compileRelationships_eq_ok.mp compiled
    exact compileRelationships_safe safe (With.sort_sort unsorted)
  · obtain ⟨t, x, inside, member, rfl⟩ := holds.encloses
    have distinct := inside.distinct safe .nil
    have select := (safe t x inside).selects b member
    refine ⟨fun e clause name named => ?_, fun e listed name named => ?_⟩
    · exact ((select.clause e clause name named).clear (List.prefix_refl _) (.cons select.distinct distinct)).1
    · rcases select.names_clear distinct listed with ⟨label, rfl⟩ | clear
      · rw [Expr.names, List.mem_singleton] at named
        rw [named]
        exact Scope.bare_not_through _ label
      · exact (clear name named).2

end Context

def albumsManifest : Manifest where
  catalog := "mdl"
  schema := "test"
  models :=
    [{ name := "Album", refSql := some "select 1",
       columns := [{ name := "name", typeName := "varchar" },
                   { name := "band", typeName := "Band", relationship := some "By" }] },
     { name := "Band", refSql := some "select 1", primaryKey := some "name",
       columns := [{ name := "name", typeName := "varchar" },
                   { name := "albums", typeName := "Album", relationship := some "By" }] }]
  relationships :=
    [{ name := "By", models := ["Album", "Band"], cardinality := .manyToOne, condition := "Album.name = Band.name" }]

def albumsLayer : Layer := ⟨albumsManifest, by decide +kernel⟩

namespace Context

/-- A model is joined to a query and to one that is correlated with it, and all bare names are qualified. -/
theorem correlated_joins_unambiguous : ∃ written q q' a, readQuery
    "SELECT 1 FROM Album WHERE 1 IN (SELECT name FROM Album a WHERE a.band.name = Album.band.name) ORDER BY name + 1" =
      .ok written ∧
    compileModels ⟨.ofLayer albumsLayer, albumsLayer⟩ written = .ok q ∧
    compileRelationships ⟨.ofLayer albumsLayer, albumsLayer⟩ q = .ok q' ∧ q'.relations ≠ q.relations ∧
    analyze ⟨.ofLayer albumsLayer, albumsLayer⟩ q' = .ok a ∧
    compileRelationships ⟨.ofLayer albumsLayer, albumsLayer⟩ q' = .ok q' := by
  let c : Context := ⟨.ofLayer albumsLayer, albumsLayer⟩
  have run : ∃ written, readQuery
    "SELECT 1 FROM Album WHERE 1 IN (SELECT name FROM Album a WHERE a.band.name = Album.band.name) ORDER BY name + 1" =
      .ok written ∧ ∃ q, c.compileModels written = .ok q ∧ ∃ r, c.joinRelationships q = .ok r ∧
        ∃ q', c.compileRelationships q = .ok q' ∧ c.Unmeasured ∧ c.Safe r.2 (c.Guarded r.2) [] q ∧
          (∀ cte ∈ q'.ctes, With.nameOf cte ∉ With.names q → c.Safe r.2 (c.Secure r.2) [] cte.query) ∧
          q'.relations ≠ q.relations := by
    set_option synthInstance.maxSize 256 in decide +kernel
  obtain ⟨written, read, q, models, ⟨joined, targets⟩, joins, q', compiled, unmeasured, guarded, added, changed⟩ := run
  obtain ⟨⟨a, analyzed⟩, again, _⟩ :=
    compileRelationships_unambiguous c written q joined q' targets models joins compiled unmeasured guarded added
  exact ⟨written, q, q', a, read, models, compiled, changed, analyzed, again⟩

end Context

end SemanticLayer
