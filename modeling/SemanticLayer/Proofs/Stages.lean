import SemanticLayer.Proofs.Rollups
import SemanticLayer.Proofs.Views

/-! # The stages of compiling

Each stage rewrites a query, adds entries and puts them in order. What one such step does to the WITH
names and to the mentions of a query composes, so a stage is described like a step.
-/

namespace SemanticLayer

open Sql List
open Judgement (returns returns_bind)
open With (names)

/-- A query evolves into another one: entries of fitting names are added, each with its base, and
    mentions are kept up to those that are gone or new. -/
structure Evolves (l : Layer) (fits : String → Prop) (reach : Reach) (gone new : Mention → Prop)
    (q q' : Query) : Prop where
  kept : ∀ name ∈ names q, name ∈ names q'
  added : ∀ name ∈ names q', name ∈ names q ∨ fits name
  based : ∀ name ∈ names q', name ∉ names q → ∀ base, l.base? name = some base → base ∈ names q'
  nodup : (names q).Nodup → (names q').Nodup
  forth : ∀ mention, q.Mentions reach mention → q'.Mentions reach mention ∨ gone mention
  /-- Added entries may mention anything, so only other entries are looked at. -/
  back : ∀ p : String → Prop, (∀ name ∉ names q, fits name → ¬p name) → ∀ mention,
    q'.MentionsIn p reach mention → q.MentionsIn p reach mention ∨ new mention

namespace Evolves

variable {l : Layer} {fits : String → Prop} {reach : Reach} {gone new : Mention → Prop} {q q' q'' : Query}

theorem trans (first : Evolves l fits reach gone new q q') (second : Evolves l fits reach gone new q' q'') :
    Evolves l fits reach gone new q q'' where
  kept name member := second.kept name (first.kept name member)
  added name member := (second.added name member).elim (first.added name) .inr
  based name member fresh base found := by
    by_cases old : name ∈ names q'
    · exact second.kept base (first.based name old fresh base found)
    · exact second.based name member old base found
  nodup h := second.nodup (first.nodup h)
  forth mention mentions := (first.forth mention mentions).elim (second.forth mention) .inr
  back p others mention mentions := by
    have others' : ∀ name ∉ names q', fits name → ¬p name :=
      fun name fresh => others name fun member => fresh (first.kept name member)
    exact (second.back p others' mention mentions).elim (first.back p others mention) .inr

theorem mono {fits' : String → Prop} {gone' new' : Mention → Prop} (evolves : Evolves l fits reach gone new q q')
    (more : ∀ name, fits name → fits' name) (lost : ∀ mention, gone mention → gone' mention)
    (brought : ∀ mention, new mention → new' mention) : Evolves l fits' reach gone' new' q q' where
  kept := evolves.kept
  added name member := (evolves.added name member).imp_right (more name)
  based := evolves.based
  nodup := evolves.nodup
  forth mention mentions := (evolves.forth mention mentions).imp_right (lost mention)
  back p others mention mentions :=
    (evolves.back p (fun name fresh fit => others name fresh (more name fit)) mention mentions).imp_right
      (brought mention)

theorem ofAdded (added : With.AddedOnce l fits q q') : Evolves l fits reach gone new q q' where
  kept _ member := added.names_subset member
  added _ member := added.fits_of_mem member
  based := added.based
  nodup := added.nodup
  forth _ mentions := .inl (added.mentions mentions)
  back p others mention mentions := by
    refine .inl (mentions.imp ?_ (Or.imp ?_ ?_))
    · rw [added.rest.body]
      exact id
    · rw [added.rest.inner_eq]
      exact id
    · rintro ⟨cte, member, named, mentions⟩
      rcases added.new cte member with old | ⟨fresh, fit⟩
      · exact ⟨cte, old, named, mentions⟩
      · exact absurd named (others _ fresh fit)

theorem ofReordered (reordered : With.Reordered q q') : Evolves l fits reach gone new q q' where
  kept name member := reordered.names_perm.mem_iff.mpr member
  added name member := .inl (reordered.names_perm.mem_iff.mp member)
  based name member fresh := absurd (reordered.names_perm.mem_iff.mp member) fresh
  nodup h := reordered.names_perm.nodup_iff.mpr h
  forth _ mentions := .inl (reordered.mentions_iff.mpr mentions)
  back p _ mention mentions := by
    rw [Query.MentionsIn, reordered.rest.body, reordered.rest.inner_eq] at mentions
    simp only [reordered.perm.mem_iff] at mentions
    exact .inl mentions

theorem ofAlike {change : Change} (alike : q.Alike change reach (Query.Follows change reach) q')
    (kept : ∀ mention mention', change.kept mention mention' → mention' = mention) :
    Evolves l fits reach change.gone change.new q q' where
  kept _ member := alike.names_eq ▸ member
  added _ member := .inl (alike.names_eq ▸ member)
  based _ member fresh := absurd (alike.names_eq ▸ member) fresh
  nodup h := alike.names_eq ▸ h
  forth _ mentions := (alike.follows.forth mentions).imp_left fun ⟨_, mentions, same⟩ => kept _ _ same ▸ mentions
  back _ _ _ mentions := (alike.back mentions).imp_left fun ⟨_, mentions, same⟩ => kept _ _ same ▸ mentions

end Evolves

namespace Context

/-- What a stage of joins does: it rewrites a query and adds the models it joined. -/
structure JoinStage (c : Context) (targets : List String) (q q' : Query) : Prop where
  evolves : ∀ reach, Evolves c.layer (fun name => c.layer.kind? name = some .model) reach
    (fun _ => reach = .written) (JoinBrings c.layer reach (· ∈ targets)) q q'
  joined : ∀ target ∈ targets, target ∈ names q'

/-- What the stage of models does after names are stripped: it adds the views that are read, then the
    models. -/
structure ModelStage (c : Context) (opened : Query) (a : Analysis) (q q' : Query) : Prop where
  opens : With.Added c.layer (fun name => c.layer.kind? name = some .view) (c.strip q) opened
  analyzed : c.analyze opened = .ok a
  views : ∀ view ∈ a.views, view ∈ names opened
  plain : ∀ mention, opened.Mentions .visited mention → c.IsPlain mention
  evolves : ∀ reach, Evolves c.layer (fun name => c.layer.kind? name = some .model) reach
    (fun _ => False) (fun _ => False) opened q'
  models : ∀ model ∈ a.models, model ∈ names q'

/-- What the stage of metrics does: it adds the metrics that are read, and replaces roll-ups. -/
structure MetricStage (c : Context) (a : Analysis) (rolledUp : List Metric) (q q' : Query) : Prop where
  analyzed : c.analyze q = .ok a
  evolves : ∀ reach, Evolves c.layer c.layer.IsData reach (rollupChange c.layer reach (· ∈ rolledUp)).gone
    (rollupChange c.layer reach (· ∈ rolledUp)).new q q'
  metrics : ∀ metric ∈ a.metrics, metric ∈ names q'
  cumulativeMetrics : ∀ metric ∈ a.cumulativeMetrics, metric ∈ names q'
  bases : ∀ m ∈ rolledUp, m.baseObject ∈ names q'
  /-- A roll-up that is read is noted, and none is left. -/
  noted : ∀ mention, q.Mentions .visited mention → mention.IsRollup →
    (rollupChange c.layer .visited (· ∈ rolledUp)).gone mention
  replaced : ∀ p : String → Prop, (∀ name ∉ names q, c.layer.IsData name → ¬p name) →
    ∀ reach mention, q'.MentionsIn p reach mention → ¬mention.IsRollup

variable (c : Context)

theorem joinQuery_stage {find : JoinFinder} (sound : find.Sound c.layer) (q : Query) : returns.holds (do
      let (q, targets) ← c.joinQuery find q
      return With.sort (← addModels c.layer targets q))
      fun q' => ∃ targets, c.JoinStage targets q q' := by
  have joined : returns.holds (c.joinQuery find q) fun r => c.joinQuery find q = .ok r :=
    fun _ h => h
  refine returns_bind joined fun (q₁, targets) joins =>
    returns_bind (addModels_added c.layer targets q₁) fun q₂ h => returns.pure ?_
  have sorted := With.sort_reordered q₂
  refine ⟨targets, fun reach => ?_, fun target member => sorted.names_perm.mem_iff.mpr (h.2 target member)⟩
  have alike := joinQuery_alike sound reach joins
  exact (Evolves.ofAlike alike fun _ _ same => same.symm).trans ((Evolves.ofAdded h.1).trans (.ofReordered sorted))

theorem compileRelationships_stage (q : Query) : returns.holds (c.compileRelationships q)
    fun q' => ∃ targets, c.JoinStage targets q q' :=
  c.joinQuery_stage (dereferences_sound c.layer) q

theorem compileGroupKeys_stage (q : Query) : returns.holds (c.compileGroupKeys q)
    fun q' => ∃ targets, c.JoinStage targets q q' :=
  c.joinQuery_stage (groupKeyJoins_sound c.layer) q

theorem compileModels_stage (q : Query) : returns.holds (c.compileModels q)
    fun q' => ∃ opened a, c.ModelStage opened a q q' := by
  refine returns_bind (addViews_pushed (c.strip q)) ?_
  rintro opened ⟨views, a, analyzed, present, _⟩
  rw [analyzed, ok_bind]
  refine returns_bind (addModels_added c.layer a.models opened) fun q₂ models => returns.pure ?_
  have plain : ∀ mention, opened.Mentions .visited mention → c.IsPlain mention := by
    refine views.keeps (p := fun q => ∀ mention, q.Mentions .visited mention → c.IsPlain mention) ?_
      fun _ => c.strip_plain
    rintro q name _ ⟨view, statement, _, _, rfl⟩ old mention mentions
    exact (With.mentions_of_push mentions).elim (old mention) c.strip_plain
  have sorted := With.sort_reordered q₂
  refine ⟨opened, a, (views.addedOnce fun _ _ writes => writes.kind).toAdded, analyzed, present, plain, fun reach => ?_,
    fun name member => ?_⟩
  · exact (Evolves.ofAdded models.1).trans (.ofReordered sorted)
  · exact sorted.names_perm.mem_iff.mpr (models.2 name member)

section Metrics

/-- The metrics that are written in full, as other metrics that are read are built on them. -/
abbrev fullMetrics (a : Analysis) : List String :=
  c.layer.baseMetrics (a.metrics ++ a.rollups.map (·.metric.name) ++ a.cumulativeMetrics)

/-- A metric is written for what a query reads of it: it is not noted as one to be written in full, and nothing that
    is built on it is written before. -/
def ReadFirst (q : Query) (a : Analysis) (name : String) : Prop :=
  name ∈ a.metrics ∧ name ∉ c.fullMetrics a ∧ ∀ other ∈ a.metrics.takeWhile (· != name), ¬ c.layer.LeadsTo q other name

/-- What is written for an object that a query reads, or that is needed for one. -/
def WritesFor (q : Query) (a : Analysis) (name : String) (body : Query) : Prop :=
  c.ReadFirst q a name ∧ c.Writes (some (a.columnsOf (c.layer.qualified name))) name body ∨
    ¬ c.ReadFirst q a name ∧ c.Writes none name body

variable {c} {q q₁ q' : Query} {a : Analysis}

theorem WritesFor.writes {name : String} {body : Query} (writes : c.WritesFor q a name body) :
    ∃ required, c.Writes required name body := by
  rcases writes with ⟨_, writes⟩ | ⟨_, writes⟩ <;> exact ⟨_, writes⟩

theorem addMetric_writesFor {done rest : List String} {name : String} (kind : c.layer.kind? name = some .metric)
    (kinds : ∀ name ∈ a.metrics, c.layer.kind? name = some .metric) (split : a.metrics = done ++ name :: rest)
    (pushed : With.Pushed c.layer (c.WritesFor q a) q q₁) (present : ∀ other ∈ done, other ∈ names q₁) : returns.holds
      (c.addMetric (c.fullMetrics a) name (some (a.columnsOf (c.layer.qualified name))) q₁) fun q' =>
      With.Pushed c.layer (c.WritesFor q a) q q' ∧ name ∈ names q' := by
  refine returns.mono (addMetricWith_pushed (addBase_adds _) (by simp) kind _ q₁) fun q' ⟨later, there⟩ =>
    ⟨pushed.trans (later.mono ?_), there⟩
  have added := pushed.added
  rintro new body absent ⟨_, writes, under⟩
  have before : ∀ other ∈ done, other ≠ new := fun other member same => absent (same ▸ present other member)
  have first : a.metrics.takeWhile (· != new) = done ++ (name :: rest).takeWhile (· != new) := by
    rw [split, takeWhile_append_of_pos fun other member => by simpa using before other member]
  by_cases same : new = name
  · subst same
    by_cases full : new ∈ c.fullMetrics a
    · rw [if_neg fun h => h.2 full] at writes
      exact .inr ⟨fun reads => reads.2.1 full, writes⟩
    · rw [if_pos ⟨rfl, full⟩] at writes
      refine .inl ⟨⟨by simp [split], full, fun other member leads => absent ?_⟩, writes⟩
      rw [first] at member
      exact added.leads leads (present other (by simpa using member))
  · rw [if_neg fun h => same h.1] at writes
    refine .inr ⟨fun ⟨read, _, unread⟩ => ?_, writes⟩
    rcases under with model | leads
    · rw [kinds new read] at model
      cases model
    · refine unread name ?_ (Relation.ReflTransGen.mono (fun x y step => ?_) _ _ leads)
      · rw [first, takeWhile_cons_of_pos (by simpa using Ne.symm same)]
        exact mem_append_right _ mem_cons_self
      · exact ⟨fun old => step.1 (pushed.names_subset old), step.2⟩

theorem addMetrics_writesFor (kinds : ∀ name ∈ a.metrics, c.layer.kind? name = some .metric) :
    ∀ (rest done : List String) (q₁ : Query), a.metrics = done ++ rest →
      With.Pushed c.layer (c.WritesFor q a) q q₁ → (∀ other ∈ done, other ∈ names q₁) →
      returns.holds (rest.foldlM (fun q name =>
        c.addMetric (c.fullMetrics a) name (some (a.columnsOf (c.layer.qualified name))) q) q₁) fun q' =>
        With.Pushed c.layer (c.WritesFor q a) q q' ∧ ∀ name ∈ a.metrics, name ∈ names q'
  | [], done, q₁, split, pushed, present => by
    rw [append_nil] at split
    exact returns.pure ⟨pushed, split ▸ present⟩
  | name :: rest, done, q₁, split, pushed, present => by
    rw [foldlM_cons]
    have step := addMetric_writesFor (kinds name (by simp [split])) kinds split pushed present
    have kept : returns.holds
        (c.addMetric (c.fullMetrics a) name (some (a.columnsOf (c.layer.qualified name))) q₁) fun q₂ =>
        ∀ other ∈ names q₁, other ∈ names q₂ :=
      returns.mono (addMetricWith_pushed (addBase_adds _) (by simp) (kinds name (by simp [split])) _ q₁)
        fun q₂ h other => h.1.names_subset
    refine returns_bind (returns.and step kept) fun q₂ ⟨⟨pushed, here⟩, kept⟩ =>
      addMetrics_writesFor kinds rest (done ++ [name]) q₂ (by simp [split]) pushed ?_
    simpa [or_imp, forall_and, here] using fun other member => kept other (present other member)

/-- Compiling metrics step by step: those that are read are added, then roll-ups are replaced, and then their bases are
    added. -/
structure MetricRun (c : Context) (a : Analysis) (rolledUp : List Metric) (q q₁ q₂ q₃ : Query) : Prop where
  analyzed : c.analyze q = .ok a
  found : With.Pushed c.layer (c.WritesFor q a) q q₁
  metrics : ∀ name ∈ a.metrics, name ∈ names q₁
  cumulativeMetrics : ∀ name ∈ a.cumulativeMetrics, name ∈ names q₁
  replaces : c.replaceRollups q₁ = .ok (q₂, rolledUp)
  bases : With.Pushed c.layer (c.Writes none) q₂ q₃
  based : ∀ m ∈ rolledUp, m.baseObject ∈ names q₃

theorem compileMetrics_run (q : Query) : returns.holds (c.compileMetrics q) fun q' =>
    ∃ a rolledUp q₁ q₂ q₃, c.MetricRun a rolledUp q q₁ q₂ q₃ ∧ q' = With.sort q₃ := by
  unfold compileMetrics
  refine returns_bind (fun _ analyzed => analyzed) fun a analyzed => ?_
  have metric : ∀ name ∈ a.metrics, c.layer.kind? name = some .metric := fun name member =>
    kind_of_found analyzed (show a.Found (.object .metric name) from member)
  have cumulative : ∀ name ∈ a.cumulativeMetrics, c.layer.kind? name = some .cumulativeMetric :=
    fun name member => kind_of_found analyzed (show a.Found (.object .cumulativeMetric name) from member)
  have cumulated : ∀ q, returns.holds
      (a.cumulativeMetrics.foldlM (fun q name => c.addCumulativeMetric (c.fullMetrics a) name q) q) fun q' =>
      With.Pushed c.layer (c.Writes none) q q' ∧ ∀ name ∈ a.cumulativeMetrics, name ∈ names q' :=
    foldlM_pushed fun name member q => returns.mono
      (addCumulativeMetricWith_pushed (addBase_adds _) (by simp) (cumulative name member) q)
      fun q' h => ⟨h.1.mono fun _ _ _ fit => fit.2.1, h.2⟩
  have based : ∀ (rolledUp : List Metric) q, returns.holds
      (rolledUp.foldlM (fun q m => c.addBase (c.fullMetrics a) [] m.name m.baseObject q) q) fun q' =>
      With.Pushed c.layer (c.Writes none) q q' ∧ ∀ m ∈ rolledUp, m.baseObject ∈ names q' := fun rolledUp =>
    foldlM_pushed fun m _ q => returns.mono (addBase_adds _ [] m.name m.baseObject q (by simp))
      fun q' h => ⟨h.1.mono fun _ _ _ fit => fit.2.1, h.2⟩
  refine returns_bind (addMetrics_writesFor metric a.metrics [] q rfl .refl (by simp))
    fun q₁ ⟨pushed, metrics⟩ => returns_bind (cumulated q₁) fun q₂ ⟨later, cumulativeMetrics⟩ =>
    returns_bind (fun _ replaces => replaces) fun (q₃, rolledUp) replaces =>
    returns_bind (based rolledUp q₃) fun q₄ ⟨bases, based⟩ => returns.pure ?_
  refine ⟨a, rolledUp, q₂, q₃, q₄, ⟨analyzed, pushed.trans (later.mono ?_), ?_, cumulativeMetrics, replaces, bases,
    based⟩, rfl⟩
  · exact fun new body absent writes => .inr ⟨fun reads => absent (metrics new reads.1), writes⟩
  · exact fun name member => later.names_subset (metrics name member)

end Metrics

theorem compileMetrics_stage (q : Query) : returns.holds (c.compileMetrics q)
    fun q' => ∃ a rolledUp, c.MetricStage a rolledUp q q' := by
  rintro q' compiled
  obtain ⟨a, rolledUp, q₁, q₂, q₃, run, rfl⟩ := compileMetrics_run q q' compiled
  have added : With.AddedOnce c.layer c.layer.IsData q q₁ :=
    run.found.addedOnce fun _ _ writes => writes.writes.elim fun _ => Writes.isData
  have bases : With.AddedOnce c.layer c.layer.IsData q₂ q₃ := run.bases.addedOnce fun _ _ => Writes.isData
  have alike := fun reach => replaceRollups_alike reach run.replaces
  have rest : ∀ reach gone new, Evolves c.layer c.layer.IsData reach gone new q₂ (With.sort q₃) :=
    fun _ _ _ => (Evolves.ofAdded bases).trans (.ofReordered (With.sort_reordered q₃))
  have evolves : ∀ reach, Evolves c.layer c.layer.IsData reach
      (rollupChange c.layer reach (· ∈ rolledUp)).gone (rollupChange c.layer reach (· ∈ rolledUp)).new
      q₁ (With.sort q₃) :=
    fun reach => (Evolves.ofAlike (alike reach) fun _ _ kept => kept.1).trans (rest reach _ _)
  have later : ∀ name ∈ names q₁, name ∈ names (With.sort q₃) := (evolves .visited).kept
  refine ⟨a, rolledUp, run.analyzed, fun reach => (Evolves.ofAdded added).trans (evolves reach),
    fun name member => later name (run.metrics name member),
    fun name member => later name (run.cumulativeMetrics name member),
    fun m member => (With.sort_reordered q₃).names_perm.mem_iff.mpr (run.based m member), ?_, ?_⟩
  · intro mention mentions isRollup
    rcases (alike .visited).follows.forth (added.mentions mentions) with ⟨_, _, _, other⟩ | gone
    · exact absurd isRollup other
    · exact gone
  · intro p others reach mention mentions
    have others' : ∀ name ∉ names q₂, c.layer.IsData name → ¬p name := fun name fresh =>
      others name fun member => fresh ((alike reach).names_eq ▸ added.names_subset member)
    rcases (rest reach (fun _ => False) fun _ => False).back p others' mention mentions with mentions | ⟨⟨⟩⟩
    rcases (alike reach).back mentions with ⟨_, _, rfl, other⟩ | new
    · exact other
    · exact new.2

/-- A run of the stages that read objects: models, relationships and metrics. -/
inductive Expands (c : Context) (q q' : Query) : Prop
  | stages {opened q₁ q₂ : Query} {a a' : Analysis} {joined : List String} {rolledUp : List Metric} :
      c.ModelStage opened a q q₁ → c.JoinStage joined q₁ q₂ → c.MetricStage a' rolledUp q₂ q' →
      Expands c q q'

abbrev runStages (c : Context) (stages : List Stage) (q : Query) : Except CompileError Query :=
  stages.foldlM (fun q stage => c.runStage stage q) q

theorem expands_of_runStages {c : Context} {q q' : Query}
    (expanded : c.runStages [.models, .relationships, .metrics] q = .ok q') : c.Expands q q' := by
  have run : returns.holds (c.runStages [.models, .relationships, .metrics] q) (c.Expands q) := by
    simp only [runStages, foldlM_cons, foldlM_nil]
    refine returns_bind (c.compileModels_stage q) fun q₁ ⟨_, _, models⟩ =>
      returns_bind (c.compileRelationships_stage q₁) fun q₂ ⟨_, joins⟩ =>
      returns_bind (c.compileMetrics_stage q₂) fun q₃ ⟨_, _, metrics⟩ => ?_
    exact returns.pure (.stages models joins metrics)
  exact run q' expanded

/-- Compiling expands a query and adds the joins of its group keys. -/
theorem expands_of_compile {c : Context} {q q' : Query} (compiled : c.compile q = .ok q') :
    ∃ expanded grouped, c.Expands q expanded ∧ c.JoinStage grouped expanded q' := by
  have split : c.compile q =
      c.runStages [.models, .relationships, .metrics] q >>= fun q => c.runStages [.groupKeys] q := by
    rw [← foldlM_append]
    rfl
  have run : returns.holds (c.compile q) fun q' =>
      ∃ expanded grouped, c.Expands q expanded ∧ c.JoinStage grouped expanded q' := by
    rw [split]
    refine returns_bind (fun _ => expands_of_runStages) fun expanded expands => ?_
    simp only [runStages, foldlM_cons, foldlM_nil, bind_pure]
    exact returns.mono (c.compileGroupKeys_stage expanded) fun q' ⟨grouped, keys⟩ =>
      ⟨expanded, grouped, expands, keys⟩
  exact run q' compiled

end Context

end SemanticLayer
