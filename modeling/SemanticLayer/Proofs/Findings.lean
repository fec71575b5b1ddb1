import SemanticLayer.Proofs.Sites

/-! # What an analysis finds

An analysis finds an object, a physical table or a roll-up exactly for each mention that means one. Main statement:
`Context.found_iff_reads`. It comes from what is found at one site, `Context.found_noted`, along all of them.
-/

namespace SemanticLayer

open List

open Sql (Path Expr Query Mention)

variable {names : List String} {r : Rollup} {table : TableName} {kind : ObjectKind}

/-- Something that a query turns out to read. -/
inductive Finding where
  | object (kind : ObjectKind) (name : String)
  | physical (table : TableName)
  | rollup (r : Rollup)

/-- What is known to be read. -/
def Analysis.Found (a : Analysis) : Finding → Prop
  | .object .model name => name ∈ a.models
  | .object .metric name => name ∈ a.metrics
  | .object .cumulativeMetric name => name ∈ a.cumulativeMetrics
  | .object .view name => name ∈ a.views
  | .physical table => table ∈ a.physicalTables
  | .rollup r => r ∈ a.rollups

theorem Analysis.checkRollups_eq_ok {a : Analysis} :
    a.checkRollups = .ok () ↔ ∀ r, a.Found (.rollup r) → ¬a.Found (.object .metric r.metric.name) := by
  unfold checkRollups
  cases found : a.rollups.find? (a.metrics.contains ·.metric.name) with
  | none => simpa [Found] using found
  | some r =>
    have both := find?_some found
    have rolled := mem_of_find?_eq_some found
    refine ⟨nofun, fun apart => absurd (contains_iff_mem.mp both) (apart r rolled)⟩

/-- The arguments of some names make a roll-up. -/
def Rollup.Of (l : Layer) (args : List (Option String)) (r : Rollup) : Prop :=
  ∃ exprs : List (Expr Query), exprs.map Expr.name? = args ∧ resolve l exprs = .ok r

namespace Rollup

theorem argument_eq_ok {e : Expr Query} {name : String} : argument e = .ok name ↔ e.name? = some name := by
  cases e <;> simp [argument, Expr.name?]

theorem mapM_argument_eq_ok {args : List (Expr Query)} :
    args.mapM argument = .ok names ↔ args.map Expr.name? = names.map some := by
  induction args generalizing names with
  | nil => cases names <;> simp [pure, Except.pure]
  | cons e args ih =>
    rw [mapM_cons]
    cases first : argument e with
    | error fault =>
      have unnamed : e.name? = none := by
        cases named : e.name? with
        | none => rfl
        | some name => rw [argument_eq_ok.mpr named] at first; cases first
      cases names <;> simp [bind, Except.bind, unnamed]
    | ok name =>
      have named := argument_eq_ok.mp first
      cases names with
      | nil => cases rest : args.mapM argument <;> simp [bind, Except.bind, pure, Except.pure]
      | cons name' names =>
        rw [map_cons, map_cons, cons.injEq, ← ih, named, Option.some.injEq]
        cases rest : args.mapM argument <;> simp [bind, Except.bind, pure, Except.pure]

theorem Of.unique {l : Layer} {args : List (Option String)} {r' : Rollup} (first : Of l args r)
    (second : Of l args r') : r = r' := by
  obtain ⟨exprs, rfl, ok⟩ := first
  obtain ⟨exprs', same, ok'⟩ := second
  cases names : exprs.mapM argument with
  | error fault =>
    rw [resolve, ofArguments, names] at ok
    cases ok
  | ok read =>
    have names' : exprs'.mapM argument = .ok read := by
      rw [mapM_argument_eq_ok, same, mapM_argument_eq_ok.mp names]
    rw [resolve, ofArguments, names] at ok
    rw [resolve, ofArguments, names', ok] at ok'
    cases ok'
    rfl

end Rollup

namespace Context

variable (c : Context)

/-- Whether a written name is one of some WITH names. Objects of the layer come first. -/
def IsBound (bound : List String) (name : Path) : Prop :=
  ∃ part, name = [part] ∧ part.value ∈ bound ∧ c.layer.kind? part.value = none

/-- What a mention means where some WITH names are visible. -/
inductive Means (bound : List String) : Mention → Finding → Prop
  | object {name : Path} {table : TableName} {kind : ObjectKind} :
      c.session.tableName name = .ok table → c.kind? table = some kind →
      Means bound (.table name) (.object kind table.table)
  | physical {name : Path} {table : TableName} :
      ¬c.IsBound bound name → c.session.tableName name = .ok table → c.kind? table = none →
      Means bound (.table name) (.physical table)
  | rollup {name : Path} {args : List (Option String)} {r : Rollup} :
      Rollup.isName name = true → Rollup.Of c.layer args r →
      Means bound (.call name args) (.rollup r)

end Context

section Scopes

theorem Scope.isNamed_iff (s : Scope) (name : String) : s.isNamed name = true ↔ name ∈ s.withNames := by
  simp [Scope.isNamed, Scope.withNames]

theorem Context.isWithName_iff (c : Context) (name : Path) (scope : Scope) :
    c.isWithName name scope = true ↔ c.IsBound scope.withNames name := by
  unfold isWithName IsBound
  split
  · rename_i part
    simp [Scope.isNamed_iff]
  · rename_i other
    simp only [Bool.false_eq_true, false_iff]
    rintro ⟨part, rfl, _⟩
    exact other part rfl

end Scopes

section Ordered

variable {α : Type} [BEq α] [LawfulBEq α]

theorem mem_insertOrdered {le : α → α → Bool} {a b : α} {l : List α} : b ∈ insertOrdered le a l ↔ b = a ∨ b ∈ l := by
  induction l with
  | nil => simp [insertOrdered]
  | cons x l ih =>
    unfold insertOrdered
    split
    · rename_i same
      simp [eq_of_beq same]
    · split
      · simp
      · simp only [mem_cons, ih]
        exact or_left_comm

theorem mem_insertName {name other : String} : other ∈ insertName name names ↔ other = name ∨ other ∈ names :=
  mem_insertOrdered

end Ordered

deriving instance ReflBEq, LawfulBEq for TableName

namespace Analysis

variable {a : Analysis} {f : Finding}

theorem found_addObject : (a.addObject table kind).Found f ↔ f = .object kind table.table ∨ a.Found f := by
  rcases f with ⟨k, name⟩ | t | r
  · cases k <;> cases kind <;> simp [addObject, addTable, Found, mem_insertName]
  · cases kind <;> simp [addObject, addTable, Found]
  · cases kind <;> simp [addObject, addTable, Found]

theorem found_addPhysical : (a.addPhysical table).Found f ↔ f = .physical table ∨ a.Found f := by
  rcases f with ⟨k, name⟩ | t | r
  · cases k <;> simp [addPhysical, addTable, Found]
  · simp [addPhysical, addTable, Found, mem_insertOrdered]
  · simp [addPhysical, addTable, Found]

theorem found_addRollup : (a.addRollup r).Found f ↔ f = .rollup r ∨ a.Found f := by
  rcases f with ⟨k, name⟩ | t | r
  · cases k <;> simp [addRollup, Found]
  · simp [addRollup, Found]
  · simp [addRollup, Found, or_comm]

end Analysis

namespace Context

section Analyses

variable {c : Context} {a : Analysis} {q : Query} {name : Path} {bound : List String} {mention : Mention}
  {f finding : Finding}

theorem last_of_tableName {session : Session}
    (named : session.tableName name = .ok table) : name.values.getLast? = some table.table := by
  unfold Session.tableName at named
  split at named <;> cases named <;> simp [*]

theorem layer_kind_of_kind (object : c.kind? table = some kind) : c.layer.kind? table.table = some kind := by
  unfold kind? at object
  split at object
  · exact object
  · cases object

theorem qualified_of_kind (object : c.kind? table = some kind) : c.layer.qualified table.table = table := by
  unfold kind? at object
  split at object
  · rename_i owned
    simp only [Layer.owns, Bool.and_eq_true, beq_iff_eq] at owned
    rw [Layer.qualified, ← owned.1, ← owned.2]
  · cases object

theorem tableName_plain (own : c.session = .ofLayer c.layer) (part : Sql.Ident) :
    c.session.tableName [part] = .ok (c.layer.qualified part.value) := by
  rw [own]
  rfl

theorem Means.unique {bound' : List String} {f' : Finding}
    (first : c.Means bound mention f) (second : c.Means bound' mention f') : f = f' := by
  cases first with
  | object named object =>
    cases second with
    | object named' object' =>
      cases named.symm.trans named'
      cases object.symm.trans object'
      rfl
    | physical _ named' free =>
      cases named.symm.trans named'
      rw [object] at free
      cases free
  | physical _ named free =>
    cases second with
    | object named' object' =>
      cases named.symm.trans named'
      rw [object'] at free
      cases free
    | physical _ named' _ =>
      cases named.symm.trans named'
      rfl
  | rollup _ rolled =>
    cases second with
    | rollup _ rolled' => rw [rolled.unique rolled']

theorem not_isBound_of_object (named : c.session.tableName name = .ok table) (object : c.kind? table = some kind)
    (bound : List String) : ¬c.IsBound bound name := by
  rintro ⟨part, rfl, _, free⟩
  cases named
  rw [layer_kind_of_kind object] at free
  cases free

theorem Means.not_isBound (means : c.Means bound (.table name) f) : ¬c.IsBound bound name := by
  cases means with
  | object named object => exact not_isBound_of_object named object bound
  | physical unbound => exact unbound

theorem found_foldl {α : Type} (note : Analysis → α → Analysis) (same : ∀ a x, (note a x).Found = a.Found)
    (l : List α) (a : Analysis) : (l.foldl note a).Found = a.Found := by
  induction l generalizing a with
  | nil => rfl
  | cons x l ih => rw [foldl_cons, ih, same]

/-- What is found at a site is what it mentions means there. -/
theorem found_noted {site : Site} (passes : c.Passes site) : (c.noted a site).Found f ↔
    a.Found f ∨ ∃ m, site.2.mention? = some m ∧ c.Means site.1.withNames m f := by
  obtain ⟨scope, part⟩ := site
  have quiet {p : Prop} {b : Analysis} (same : b.Found = a.Found) (nothing : ¬p) : b.Found f ↔ a.Found f ∨ p := by
    rw [same, or_iff_left nothing]
  have silent {part : Part} (nothing : part.mention? = none) :
      ¬∃ m, part.mention? = some m ∧ c.Means scope.withNames m f := by simp [nothing]
  cases part with
  | table name =>
    simp only [Part.mention?, Option.some.injEq, exists_eq_left']
    obtain ⟨table, named⟩ := passes
    rw [noted]
    split
    · rename_i bound
      exact quiet rfl fun means => means.not_isBound ((c.isWithName_iff name scope).mp bound)
    · rename_i free
      rw [c.isWithName_iff] at free
      cases object : c.kind? table with
      | some kind =>
        simp only [named, object]
        rw [or_comm, Analysis.found_addObject]
        have means : c.Means scope.withNames (.table name) (.object kind table.table) := .object named object
        exact or_congr_left ⟨fun same => same ▸ means, fun other => other.unique means⟩
      | none =>
        simp only [named, object]
        rw [or_comm, Analysis.found_addPhysical]
        have means : c.Means scope.withNames (.table name) (.physical table) := .physical free named object
        exact or_congr_left ⟨fun same => same ▸ means, fun other => other.unique means⟩
  | call name args =>
    simp only [Part.mention?, Option.some.injEq, exists_eq_left']
    obtain ⟨named, r, resolved⟩ := passes
    rw [noted, resolved, or_comm, Analysis.found_addRollup]
    have means : c.Means scope.withNames (.call name (args.map Expr.name?)) (.rollup r) :=
      .rollup named ⟨args, rfl, resolved⟩
    exact or_congr_left ⟨fun same => same ▸ means, fun other => other.unique means⟩
  | names | columns => exact quiet (found_foldl (fun a field => a.addRead field) (fun _ _ => rfl) _ _) (silent rfl)
  | filter => exact quiet (found_foldl (fun a p => a.addPredicate p) (fun _ _ => rfl) _ _) (silent rfl)
  | output e label =>
    refine quiet ?_ (silent rfl)
    rw [noted]
    repeat' split
    all_goals rfl
  | refused => exact passes.elim
  | finish => exact quiet rfl (silent rfl)

theorem found_foldl_noted {sites : List Site} (passes : c.PassAll sites) : (sites.foldl c.noted a).Found f ↔ a.Found f ∨
      ∃ site ∈ sites, ∃ m, site.2.mention? = some m ∧ c.Means site.1.withNames m f := by
  induction sites generalizing a with
  | nil => simp
  | cons site rest ih =>
    obtain ⟨first, others⟩ := forall_mem_cons.mp passes
    rw [foldl_cons, ih others, found_noted first, or_assoc]
    simp only [mem_cons, exists_eq_or_imp]

def gathered (c : Context) (q : Query) : Analysis := (c.sites q []).foldl c.noted {}

theorem analyze_eq_ok : c.analyze q = .ok a ↔
    c.PassAll (c.sites q []) ∧ (c.gathered q).checkRollups = .ok () ∧
      a = { c.gathered q with
        sort := q.orderBy.map fun item => (item.expr.render, item.ascending.getD true)
        limit := q.limit.map Expr.render } := by
  unfold analyze
  change (c.visitQuery q.height q [] {} >>= fun r => r.2.checkRollups >>= fun _ => .ok _) = _ ↔ _
  rw [bind_eq_ok_iff]
  constructor
  · rintro ⟨⟨own, visited⟩, run, rest⟩
    obtain ⟨passes, _, rfl⟩ := visitQuery_eq_ok.mp run
    obtain ⟨_, checked, same⟩ := bind_eq_ok_iff.mp rest
    exact ⟨passes, checked, (Except.ok.inj same).symm⟩
  · rintro ⟨passes, checked, rfl⟩
    exact ⟨_, visitQuery_eq_ok.mpr ⟨passes, rfl, rfl⟩, bind_eq_ok_iff.mpr ⟨(), checked, rfl⟩⟩

theorem found_gathered (passes : c.PassAll (c.sites q [])) :
    (c.gathered q).Found f ↔ ∃ bound m, q.Reads .visited [] bound m ∧ c.Means bound m f := by
  have start : ¬ Analysis.Found {} f := by
    rcases f with ⟨kind, name⟩ | table | r
    · cases kind <;> exact not_mem_nil
    · exact not_mem_nil
    · exact not_mem_nil
  rw [gathered, found_foldl_noted passes, or_iff_right start]
  constructor
  · rintro ⟨site, member, m, found, means⟩
    exact ⟨_, m, reads_of_site _ q [] passes site member m found, means⟩
  · rintro ⟨bound, m, reads, means⟩
    obtain ⟨site, member, rfl, found⟩ := site_of_reads reads q.height [] (Nat.le_refl _) rfl passes
    exact ⟨site, member, m, found, means⟩

theorem found_iff_reads (analyzed : c.analyze q = .ok a) :
    a.Found f ↔ ∃ bound m, q.Reads .visited [] bound m ∧ c.Means bound m f := by
  obtain ⟨passes, _, rfl⟩ := analyze_eq_ok.mp analyzed
  exact found_gathered passes

theorem found_is_read (analyzed : c.analyze q = .ok a) (found : a.Found finding) :
    ∃ bound mention, q.Reads .visited [] bound mention ∧ c.Means bound mention finding :=
  (found_iff_reads analyzed).mp found

theorem found_of_reads (analyzed : c.analyze q = .ok a) (reads : q.Reads .visited [] bound mention)
    (means : c.Means bound mention finding) : a.Found finding :=
  (found_iff_reads analyzed).mpr ⟨bound, mention, reads, means⟩

/-- A mention is that of a WITH name, or what it means is found. -/
def Accounted (c : Context) (found : Finding → Prop) (bound : List String) (mention : Mention) : Prop :=
  (∃ name, mention = .table name ∧ c.IsBound bound name) ∨ ∃ finding, c.Means bound mention finding ∧ found finding

/-- Everything that a query reads is a WITH name there or is found. -/
theorem analyze_finds (analyzed : c.analyze q = .ok a)
    (reads : q.Reads .visited [] bound mention) : c.Accounted a.Found bound mention := by
  obtain ⟨passes, _⟩ := analyze_eq_ok.mp analyzed
  obtain ⟨site, member, rfl, found⟩ := site_of_reads reads q.height [] (Nat.le_refl _) rfl passes
  by_cases means : ∃ f, c.Means site.1.withNames mention f
  · obtain ⟨f, means⟩ := means
    exact .inr ⟨f, means, found_of_reads analyzed reads means⟩
  · refine .inl ?_
    obtain ⟨scope, part⟩ := site
    cases part with
    | table name =>
      cases found
      obtain ⟨table, named⟩ := passes _ member
      refine ⟨name, rfl, by_contra fun free => means ?_⟩
      cases object : c.kind? table with
      | some kind => exact ⟨_, .object named object⟩
      | none => exact ⟨_, .physical free named object⟩
    | call name args =>
      cases found
      obtain ⟨named, r, resolved⟩ := passes _ member
      exact absurd ⟨_, .rollup named ⟨args, rfl, resolved⟩⟩ means
    | names | columns | output | filter | refused | finish => cases found

theorem kind_of_found (analyzed : c.analyze q = .ok a)
    {name : String} (found : a.Found (.object kind name)) : c.layer.kind? name = some kind := by
  obtain ⟨_, _, _, means⟩ := found_is_read analyzed found
  cases means with
  | object _ object => exact layer_kind_of_kind object

theorem found_of_mentions (analyzed : c.analyze q = .ok a) (mentions : q.Mentions .visited mention)
    (means : c.Means bound mention finding) (virtual : ∀ table, finding ≠ .physical table) : a.Found finding := by
  obtain ⟨bound', reads⟩ := mentions
  have means' : c.Means bound' mention finding := by
    cases means with
    | object named object => exact .object named object
    | physical => exact absurd rfl (virtual _)
    | rollup named rolled => exact .rollup named rolled
  exact found_of_reads analyzed reads means'

theorem names_nodup_of_analyze (analyzed : c.analyze q = .ok a) : (With.names q).Nodup := by
  obtain ⟨n, height⟩ := Query.exists_succ (Nat.le_refl q.height)
  have passes := (analyze_eq_ok.mp analyzed).1
  rw [sites, height] at passes
  exact (accepts_of_sitesAt passes).2

end Analyses

end Context

end SemanticLayer
