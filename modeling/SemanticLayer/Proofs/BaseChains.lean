import Mathlib.Data.List.Perm.Subperm
import Mathlib.Data.List.TakeWhile
import SemanticLayer.Proofs.Keys
import SemanticLayer.Proofs.Objects

/-! # Chains of base objects

A metric or cumulative metric is built on its base object, that one on another, and so on down to a model and its base
models. Adding an object follows its chain; nothing in a manifest keeps a chain from coming back to itself. Main
statement: `Context.base_chain_followed`, by which a chain is followed to its end, or refused.
-/

namespace SemanticLayer

open List

open Sql (Query)
open Judgement (returns)
open With (names Pushed)

namespace Layer

variable {l : Layer} {name base : String} {o : String}

/-- A chain of base objects and base models leads from an object to another one. -/
abbrev Reaches (l : Layer) : String → String → Prop := Relation.ReflTransGen fun x y => l.base? x = some y

theorem model?_of_kind (kind : l.kind? name = some .model) : ∃ m, l.model? name = some m := by
  have found := kind?_eq_some_iff.mp kind
  exact Option.isSome_iff_exists.mp (find?_isSome_iff.mpr found)

theorem metric?_of_kind (kind : l.kind? name = some .metric) : ∃ m, l.metric? name = some m := by
  have found := kind?_eq_some_iff.mp kind
  exact Option.isSome_iff_exists.mp (find?_isSome_iff.mpr found)

theorem cumulativeMetric?_of_kind (kind : l.kind? name = some .cumulativeMetric) :
    ∃ m, l.cumulativeMetric? name = some m := by
  have found := kind?_eq_some_iff.mp kind
  exact Option.isSome_iff_exists.mp (find?_isSome_iff.mpr found)

theorem kind_of_base (based : l.base? name = some base) :
    l.kind? name = some .model ∨ l.kind? name = some .metric ∨ l.kind? name = some .cumulativeMetric := by
  unfold base? baseObject? at based
  grind

theorem checkModel_base {m : Manifest} {model : Model} (checked : m.checkModel model = .ok ())
    (isBase : model.baseModel = some base) : (m.model? base).isSome = true := by
  unfold Manifest.checkModel at checked
  cases text : model.refSql with
  | some sql => rw [text, isBase] at checked; cases checked
  | none =>
    cases found : m.model? base with
    | some model' => rfl
    | none =>
      simp only [text, isBase, found, Option.isNone_none, if_true] at checked
      cases checked

theorem model_of_base (kind : l.kind? name = some .model) (based : l.base? name = some base) :
    l.kind? base = some .model := by
  obtain ⟨m, found⟩ := model?_of_kind kind
  rw [base_of_model found] at based
  have isSome := checkModel_base (l.checks.2.1 m (mem_of_find?_eq_some found)) based
  obtain ⟨m', found'⟩ := Option.isSome_iff_exists.mp isSome
  exact kind_of_model found'

theorem model_of_reaches (kind : l.kind? name = some .model) (reaches : l.Reaches name o) :
    l.kind? o = some .model := by
  induction reaches with
  | refl => exact kind
  | tail _ step ih => exact model_of_base ih step

theorem base_unique (l : Layer) : Relator.RightUnique fun x y => l.base? x = some y :=
  fun _ _ _ first second => Option.some.inj (first.symm.trans second)

/-- From a chain that comes back to an object, there is always a way back to it. -/
theorem Reaches.back (based : l.base? name = some base) (again : l.Reaches base name)
    (reaches : l.Reaches name o) : l.Reaches o name := by
  induction reaches with
  | refl => exact .refl
  | tail _ step ih =>
    rcases ih.cases_head with rfl | ⟨next, step', rest⟩
    · rwa [← l.base_unique based step]
    · rwa [← l.base_unique step' step]

/-- A chain that comes back to one of its objects has no end. -/
theorem Reaches.endless {x : String} (reaches : l.Reaches name o) (based : l.base? o = some base)
    (again : l.Reaches base o) (reaches' : l.Reaches name x) : ∃ y, l.base? x = some y := by
  have back : l.Reaches x o := by
    rcases Relation.ReflTransGen.total_of_right_unique l.base_unique reaches reaches' with further | before
    · exact .back based again further
    · exact before
  rcases back.cases_head with rfl | ⟨next, step, _⟩
  · exact ⟨base, based⟩
  · exact ⟨next, step⟩

end Layer

/-- How a base object is added, given the objects that are being added, and its owner. -/
abbrev Adding : Type := List String → String → String → Query → Except CompileError Query

/-- What a run that adds an object does first: it finds the object in the query or among those that are being added, or
it adds the base of the object, if there is one. -/
inductive Layer.Descends (l : Layer) (own : CompileError) (visiting : List String) (name : String) (q : Query)
    (run : Adding → Except CompileError Query) : Prop
  | present : name ∈ names q → (∀ add, run add = .ok q) → Descends l own visiting name q run
  | again : name ∈ visiting → (∀ add, run add = .error own) → Descends l own visiting name q run
  | alone {result : Except CompileError Query} : l.base? name = none → (∀ add, run add = result) →
      Descends l own visiting name q run
  | base {owner base : String} {rest : Query → Except CompileError Query} : name ∉ visiting →
      l.base? name = some base → (∀ add, run add = add (name :: visiting) owner base q >>= rest) →
      Descends l own visiting name q run

/-- Adding objects in at most so many steps: those that are `known` are added behind their bases, and others in one
step. -/
structure Layer.Follows (l : Layer) (known : List String) (own : String → CompileError) (follow : Nat → Adding) :
    Prop where
  stop : ∀ visiting owner name q, follow 0 visiting owner name q = .error (own name)
  step : ∀ visiting owner name q, name ∈ known → ∃ run, l.Descends (own name) visiting name q run ∧
    ∀ n, follow (n + 1) visiting owner name q = run (follow n)
  other : ∀ visiting owner name q, name ∉ known → ∃ result, ∀ n, follow (n + 1) visiting owner name q = result

namespace Layer

variable {l : Layer} {own : CompileError} {visiting : List String} {name : String} {q : Query}
  {run : Adding → Except CompileError Query} {add : Adding} {kind : CompileErrorKind}

theorem Descends.congr (descends : l.Descends own visiting name q run) {add' : Adding}
    (same : name ∉ visiting → ∀ owner base, add (name :: visiting) owner base q = add' (name :: visiting) owner base q) :
    run add = run add' := by
  cases descends with
  | present _ all | again _ all | alone _ all => rw [all, all]
  | base fresh _ all => rw [all, all, same fresh]

theorem Descends.fails (descends : l.Descends own visiting name q run) {base : String} (absent : name ∉ names q)
    (again : name ∈ visiting → own.kind = kind) (based : l.base? name = some base)
    (below : name ∉ visiting → ∀ owner, ∃ e, add (name :: visiting) owner base q = .error e ∧ e.kind = kind) :
    ∃ e, run add = .error e ∧ e.kind = kind := by
  cases descends with
  | present member => exact absurd member absent
  | again member all => exact ⟨own, all add, again member⟩
  | alone none => rw [none] at based; cases based
  | @base owner base' rest fresh based' all =>
    obtain rfl := l.base_unique based based'
    obtain ⟨e, failed, same⟩ := below fresh owner
    exact ⟨e, by rw [all, failed]; rfl, same⟩

namespace Follows

variable {known : List String} {own : String → CompileError} {follow : Nat → Adding}

/-- With steps enough for the objects that are known, further steps change nothing. -/
theorem settles (follows : l.Follows known own follow) {n n' : Nat} (owner name : String)
    (distinct : visiting.Nodup) (inside : visiting ⊆ known) (enough : known.length < n + visiting.length)
    (enough' : known.length < n' + visiting.length) :
    follow n visiting owner name q = follow n' visiting owner name q := by
  induction n generalizing n' visiting owner name with
  | zero =>
    have := (Nodup.subperm distinct inside).length_le
    omega
  | succ n ih =>
    cases n' with
    | zero =>
      have := (Nodup.subperm distinct inside).length_le
      omega
    | succ n' =>
      by_cases listed : name ∈ known
      · obtain ⟨run, descends, steps⟩ := follows.step visiting owner name q listed
        rw [steps, steps]
        refine descends.congr fun fresh owner base => ih owner base (distinct.cons fresh) ?_ ?_ ?_
        · exact cons_subset.mpr ⟨listed, inside⟩
        · simp only [length_cons]; omega
        · simp only [length_cons]; omega
      · obtain ⟨result, steps⟩ := follows.other visiting owner name q listed
        rw [steps, steps]

/-- Objects with no way out cannot be added: each is built on such an object, or refused at once. -/
theorem fails (follows : l.Follows known own follow) (kinds : ∀ name, (own name).kind = kind)
    (bare : q.ctes = []) (lost : String → Prop)
    (closed : ∀ name, lost name → (name ∈ known ∧ ∃ base, l.base? name = some base ∧ lost base) ∨
      ∀ n visiting owner, ∃ e, follow (n + 1) visiting owner name q = .error e ∧ e.kind = kind) :
    ∀ n visiting owner name, lost name → ∃ e, follow n visiting owner name q = .error e ∧ e.kind = kind
  | 0, visiting, owner, name, _ => ⟨_, follows.stop visiting owner name q, kinds name⟩
  | n + 1, visiting, owner, name, isLost => by
    rcases closed name isLost with ⟨listed, base, based, below⟩ | refused
    · obtain ⟨run, descends, steps⟩ := follows.step visiting owner name q listed
      rw [steps]
      refine descends.fails (by simp [names, bare]) (fun _ => kinds name) based fun _ owner => ?_
      exact follows.fails kinds bare lost closed n _ owner base below
    · exact refused n visiting owner

end Follows

end Layer

section Models

variable {l : Layer} {q : Query}

theorem addModelUpTo_follows (l : Layer) : l.Follows (l.manifest.namesOf .model) .ownBaseModel
    fun n visiting _ name q => addModelUpTo l n visiting name q where
  stop _ _ _ _ := rfl
  step visiting owner name q listed := by
    obtain ⟨m, found⟩ := Layer.model?_of_kind (Layer.kind?_eq_some_iff.mpr listed)
    have based := Layer.base_of_model found
    by_cases present : With.has q name = true
    · exact ⟨fun _ => .ok q, .present (With.has_iff.mp present) fun _ => rfl, fun n => by
        simp [addModelUpTo, present, pure, Except.pure]⟩
    · by_cases again : visiting.contains name = true
      · exact ⟨fun _ => .error (.ownBaseModel name), .again (contains_iff_mem.mp again) fun _ => rfl, fun n => by
          simp only [addModelUpTo, present, again]; rfl⟩
      · have fresh := again ∘ contains_iff_mem.mpr
        cases isBase : m.baseModel with
        | none =>
          rw [isBase] at based
          exact ⟨fun _ => _, .alone based fun _ => rfl, fun n => by
            simp only [addModelUpTo, present, again, found, isBase]; rfl⟩
        | some base =>
          rw [isBase] at based
          exact ⟨fun add => add (name :: visiting) name base q >>= _, .base fresh based fun _ => rfl, fun n => by
            simp only [addModelUpTo, present, again, found, isBase]; rfl⟩
  other visiting owner name q other := by
    have missing : l.model? name = none := by
      rw [← Option.not_isSome_iff_eq_none]
      exact fun found => other (find?_isSome_iff.mp found)
    by_cases present : With.has q name = true
    · exact ⟨_, fun n => by simp only [addModelUpTo, present, if_true]; rfl⟩
    · by_cases again : visiting.contains name = true
      · exact ⟨_, fun n => by simp only [addModelUpTo, present, again]; rfl⟩
      · exact ⟨_, fun n => by simp only [addModelUpTo, present, again, missing]; rfl⟩

theorem addModel_endless (bare : q.ctes = []) {name : String} (kind : l.kind? name = some .model)
    (endless : ∀ o, l.Reaches name o → ∃ base, l.base? o = some base) :
    ∃ e, addModel l name q = .error e ∧ e.kind = .statement := by
  refine (addModelUpTo_follows l).fails (fun _ => rfl) bare (fun x => l.kind? x = some .model ∧
    ∀ o, l.Reaches x o → ∃ base, l.base? o = some base) ?_ _ [] name name ⟨kind, endless⟩
  rintro x ⟨kind, endless⟩
  obtain ⟨base, based⟩ := endless x .refl
  exact .inl ⟨Layer.kind?_eq_some_iff.mp kind, base, based, Layer.model_of_base kind based,
    fun o reaches => endless o (.head based reaches)⟩

end Models

namespace Context

variable {c : Context} {q : Query} {name : String} {base model : String}

theorem addMetricWith_descends (full visiting : List String) (required : Option (List String)) (q : Query)
    (kind : c.layer.kind? name = some .metric) : c.layer.Descends (.ownBaseObject name) visiting name q
      fun add => c.addMetricWith full add visiting name required q := by
  obtain ⟨m, found⟩ := Layer.metric?_of_kind kind
  unfold addMetricWith
  by_cases present : With.has q name = true
  · exact .present (With.has_iff.mp present) fun add => by simp only [present]; rfl
  · by_cases again : visiting.contains name = true
    · exact .again (contains_iff_mem.mp again) fun add => by simp only [present, found, enter, again]; rfl
    · exact .base (again ∘ contains_iff_mem.mpr) (Layer.base_of_metric kind found) fun add => by
        simp only [present, found, enter, again]; rfl

theorem addCumulativeMetricWith_descends (visiting : List String) (q : Query)
    (kind : c.layer.kind? name = some .cumulativeMetric) : c.layer.Descends (.ownBaseObject name) visiting name q
      fun add => c.addCumulativeMetricWith add visiting name q := by
  obtain ⟨m, found⟩ := Layer.cumulativeMetric?_of_kind kind
  unfold addCumulativeMetricWith
  by_cases present : With.has q name = true
  · exact .present (With.has_iff.mp present) fun add => by simp only [present]; rfl
  · by_cases again : visiting.contains name = true
    · exact .again (contains_iff_mem.mp again) fun add => by simp only [present, found, enter, again]; rfl
    · exact .base (again ∘ contains_iff_mem.mpr) (Layer.base_of_cumulativeMetric kind found) fun add => by
        simp only [present, found, enter, again]; rfl

abbrev built (c : Context) : List String :=
  c.layer.manifest.namesOf .metric ++ c.layer.manifest.namesOf .cumulativeMetric

theorem mem_built : name ∈ c.built ↔
    c.layer.kind? name = some .metric ∨ c.layer.kind? name = some .cumulativeMetric := by
  rw [mem_append, Layer.kind?_eq_some_iff, Layer.kind?_eq_some_iff]

theorem base_of_built (listed : name ∈ c.built) : ∃ base, c.layer.base? name = some base := by
  rcases mem_built.mp listed with kind | kind
  · obtain ⟨m, found⟩ := Layer.metric?_of_kind kind
    exact ⟨_, Layer.base_of_metric kind found⟩
  · obtain ⟨m, found⟩ := Layer.cumulativeMetric?_of_kind kind
    exact ⟨_, Layer.base_of_cumulativeMetric kind found⟩

theorem built_of_base (based : c.layer.base? name = some base)
    (other : c.layer.kind? name ≠ some .model) : name ∈ c.built :=
  mem_built.mpr ((Layer.kind_of_base based).resolve_left other)

theorem addBaseUpTo_follows (full : List String) : c.layer.Follows c.built .ownBaseObject (c.addBaseUpTo full) where
  stop _ _ _ _ := rfl
  step visiting owner name q listed := by
    rcases mem_built.mp listed with kind | kind
    · exact ⟨_, addMetricWith_descends full visiting none q kind, fun n => by simp only [addBaseUpTo, kind]⟩
    · exact ⟨_, addCumulativeMetricWith_descends visiting q kind, fun n => by simp only [addBaseUpTo, kind]⟩
  other visiting owner name q other := by
    rw [mem_built, not_or] at other
    unfold addBaseUpTo
    split
    · exact ⟨_, fun _ => rfl⟩
    · rename_i kind
      exact absurd kind other.1
    · rename_i kind
      exact absurd kind other.2
    · exact ⟨_, fun _ => rfl⟩

variable {full : List String}

theorem addBaseUpTo_lost (bare : q.ctes = []) (n : Nat) (visiting : List String) (owner : String)
    (lost : ∀ o, c.layer.Reaches name o → c.layer.kind? o ≠ some .model) :
    ∃ e, c.addBaseUpTo full n visiting owner name q = .error e ∧ e.kind = .metric := by
  refine (addBaseUpTo_follows full).fails (fun _ => rfl) bare
    (fun x => ∀ o, c.layer.Reaches x o → c.layer.kind? o ≠ some .model) (fun x lost => ?_) n visiting owner name lost
  by_cases listed : x ∈ c.built
  · obtain ⟨base, based⟩ := base_of_built listed
    exact .inl ⟨listed, base, based, fun o reaches => lost o (.head based reaches)⟩
  · refine .inr fun n visiting owner => ⟨.badBaseObject x owner, ?_, rfl⟩
    rw [mem_built, not_or] at listed
    unfold addBaseUpTo
    split
    · rename_i kind
      exact absurd kind (lost x .refl)
    · rename_i kind
      exact absurd kind listed.1
    · rename_i kind
      exact absurd kind listed.2
    · rfl

/-- A metric from which a chain leads to a model is not met again on that chain. -/
theorem not_again (based : c.layer.base? name = some base) (other : c.layer.kind? name ≠ some .model)
    (reaches : c.layer.Reaches base model) (kind : c.layer.kind? model = some .model) : ¬ c.layer.Reaches base name :=
  fun again => other (Layer.model_of_reaches kind (.back based again (.head based reaches)))

/-- A chain that comes to a model and never ends is refused where the models come back. -/
theorem addBaseUpTo_endless (full : List String) (bare : q.ctes = []) (reaches : c.layer.Reaches name model)
    (kind : c.layer.kind? model = some .model)
    (endless : ∀ o, c.layer.Reaches name o → ∃ base, c.layer.base? o = some base) :
    ∃ least, ∀ n ≥ least, ∀ visiting owner, (∀ v ∈ visiting, ¬ c.layer.Reaches name v) →
      ∃ e, c.addBaseUpTo full n visiting owner name q = .error e ∧ e.kind = .statement := by
  have atModel : ∀ x, c.layer.kind? x = some .model → (∀ o, c.layer.Reaches x o → ∃ base, c.layer.base? o = some base) →
      ∀ n visiting owner, ∃ e, c.addBaseUpTo full (n + 1) visiting owner x q = .error e ∧ e.kind = .statement := by
    intro x kind endless n visiting owner
    simp only [addBaseUpTo, kind]
    exact addModel_endless bare kind endless
  induction reaches using Relation.ReflTransGen.head_induction_on with
  | refl =>
    refine ⟨1, fun n enough visiting owner _ => ?_⟩
    obtain ⟨n, rfl⟩ := Nat.exists_eq_add_of_le' enough
    exact atModel model kind endless n visiting owner
  | @head x base based rest ih =>
    obtain ⟨least, below⟩ := ih fun o reaches => endless o (.head based reaches)
    refine ⟨least + 1, fun n enough visiting owner fresh => ?_⟩
    obtain ⟨n, rfl⟩ := Nat.exists_eq_add_of_le' (Nat.le_of_add_left_le enough)
    by_cases other : c.layer.kind? x = some .model
    · exact atModel x other endless n visiting owner
    · obtain ⟨run, descends, steps⟩ := (addBaseUpTo_follows full).step visiting owner x q (built_of_base based other)
      rw [steps]
      refine descends.fails (by simp [names, bare]) (fun again => absurd .refl (fresh x again)) based fun _ owner => ?_
      refine below n (by omega) _ owner (forall_mem_cons.mpr ⟨not_again based other rest kind, ?_⟩)
      exact fun v member reaches => fresh v member (.head based reaches)

/-- What adding an object comes to, with a bound on the steps and without: a larger bound changes nothing; a chain of
bases that comes to no object to build on, or back to one of its own, is refused, with a complaint about the object
where it does so; and otherwise all objects of the chain have one entry each, behind that of the base. -/
structure Followed (c : Context) (name : String) (bounded : Nat → Except CompileError Query)
    (run : Except CompileError Query) : Prop where
  settled : ∀ n ≥ c.layer.manifest.metrics.length + c.layer.manifest.cumulativeMetrics.length + 2, bounded n = run
  rejected : ∀ o base, c.layer.Reaches name o → c.layer.base? o = some base →
    (c.layer.kind? base = none ∨ c.layer.kind? base = some .view ∨ c.layer.Reaches base o) →
    ∃ e, run = .error e ∧ e.kind = if c.layer.kind? o = some .model then .statement else .metric
  resolved : ∀ q', run = .ok q' → ∀ o, c.layer.Reaches name o → (names q').count o = 1 ∧
    ∀ base, c.layer.base? o = some base → (names q').idxOf base < (names q').idxOf o

theorem names_push {body : Query} (objects : ∀ x ∈ names q, (c.layer.kind? x).isSome = true) :
    names (With.push c.layer name body q) = names q ++ [name] := by
  have all : ∀ cte ∈ q.ctes, ((fun name => (c.layer.kind? name).isSome) ∘ With.nameOf) cte = true :=
    fun cte member => objects _ (With.mem_names_of_mem member)
  simp only [names, With.push, With.insert, takeWhile_eq_self_iff.mpr all, dropWhile_eq_nil_iff.mpr all]
  simp [With.nameOf]

/-- In a query that had no entries, each entry stands behind the one of its base. -/
theorem pushed_in_order {fits : String → Query → Prop} {q' : Query} (bare : q.ctes = [])
    (pushed : Pushed c.layer fits q q') (objects : ∀ x body, fits x body → c.layer.IsData x) :
    (∀ x ∈ names q', (c.layer.kind? x).isSome = true) ∧ ∀ x ∈ names q', ∀ base, c.layer.base? x = some base →
      (names q').idxOf base < (names q').idxOf x := by
  induction pushed with
  | refl => simp [names, bare]
  | @push q' new body _ fresh based fit ih =>
    obtain ⟨known, ordered⟩ := ih
    obtain ⟨kind, isKind, _⟩ := objects new body fit
    rw [names_push known]
    refine ⟨fun x member => ?_, fun x member base isBase => ?_⟩
    · rcases mem_append.mp member with old | last
      · exact known x old
      · rw [mem_singleton.mp last, isKind]
        rfl
    · rcases mem_append.mp member with old | last
      · rw [idxOf_append_of_mem old]
        have before := ordered x old base isBase
        rwa [idxOf_append_of_mem]
        exact idxOf_lt_length_iff.mp (Nat.lt_trans before (idxOf_lt_length_iff.mpr old))
      · obtain rfl := mem_singleton.mp last
        have present := based base isBase
        rw [idxOf_append_of_mem present, idxOf_append_of_notMem fresh]
        exact Nat.lt_add_right _ (idxOf_lt_length_iff.mpr present)

theorem Followed.of_descends {run : Adding → Except CompileError Query} (bare : q.ctes = []) (listed : name ∈ c.built)
    (descends : c.layer.Descends (.ownBaseObject name) [] name q run)
    (pushes : returns.holds (run (c.addBase full)) fun q' => name ∈ names q' ∧
      ∃ fits, Pushed c.layer fits q q' ∧ ∀ x body, fits x body → c.layer.IsData x) :
    c.Followed name (fun n => run (c.addBaseUpTo full n)) (run (c.addBase full)) := by
  have other : c.layer.kind? name ≠ some .model := by
    rcases mem_built.mp listed with kind | kind <;> rw [kind] <;> decide
  have absent : name ∉ names q := by simp [names, bare]
  have known : c.built.length = c.layer.manifest.metrics.length + c.layer.manifest.cumulativeMetrics.length := by
    simp [built, Manifest.namesOf]
  obtain ⟨first, based⟩ := base_of_built listed
  have settled : ∀ n ≥ c.layer.manifest.metrics.length + c.layer.manifest.cumulativeMetrics.length + 2,
      ∀ owner base, c.addBaseUpTo full n [name] owner base q = c.addBase full [name] owner base q := by
    intro n enough owner base
    refine (addBaseUpTo_follows full).settles owner base (nodup_singleton name) (by simpa using listed) ?_ ?_ <;>
      simp only [length_singleton] <;> omega
  refine ⟨fun n enough => descends.congr fun _ => settled n enough, fun o base reaches isBase bad => ?_, ?_⟩
  · by_cases kind : c.layer.kind? o = some .model
    · -- The chain goes round among models.
      rw [if_pos kind]
      have again : c.layer.Reaches base o := by
        have model := Layer.model_of_base kind isBase
        rcases bad with none | view | again
        · rw [model] at none; cases none
        · rw [model] at view; cases view
        · exact again
      rcases reaches.cases_head with rfl | ⟨first', based', rest⟩
      · exact absurd kind other
      · obtain rfl := c.layer.base_unique based based'
        obtain ⟨least, below⟩ := addBaseUpTo_endless full bare rest kind fun x =>
          Layer.Reaches.endless rest isBase again
        refine descends.fails absent (absurd · not_mem_nil) based fun _ owner => ?_
        rw [← settled _ (Nat.le_max_left _ least)]
        refine below _ (Nat.le_max_right _ _) [name] owner fun v member => ?_
        rw [mem_singleton.mp member]
        exact not_again based other rest kind
    · -- The chain never comes to a model: from there it would not come back.
      rw [if_neg kind]
      refine descends.fails absent (absurd · not_mem_nil) based fun _ owner => addBaseUpTo_lost bare _ _ owner ?_
      intro x reaches' model
      have further : c.layer.Reaches o x := by
        rcases Relation.ReflTransGen.total_of_right_unique c.layer.base_unique reaches (.head based reaches') with h | h
        · exact h
        · exact absurd (Layer.model_of_reaches model h) kind
      rcases further.cases_head with rfl | ⟨base', step, rest⟩
      · exact kind model
      · obtain rfl := c.layer.base_unique isBase step
        have isObject : c.layer.kind? base = some .model ∨ c.layer.kind? base = some .metric ∨
            c.layer.kind? base = some .cumulativeMetric := by
          rcases rest.cases_head with rfl | ⟨_, step', _⟩
          · exact .inl model
          · exact Layer.kind_of_base step'
        rcases bad with none | view | again
        · simp [none] at isObject
        · simp [view] at isObject
        · exact kind (Layer.model_of_reaches model (.back isBase again further))
  · intro q' ran o reaches
    obtain ⟨present, fits, pushed, objects⟩ := pushes q' ran
    have added := pushed.added
    have member : o ∈ names q' := by
      induction reaches with
      | refl => exact present
      | tail _ step ih => exact added.based _ ih (by simp [names, bare]) _ step
    have distinct := added.nodup (by simp [names, bare])
    exact ⟨count_eq_one_of_mem distinct member, (pushed_in_order bare pushed objects).2 o member⟩

/-- A chain of base objects is followed to its end or refused, and never goes round. -/
theorem base_chain_followed (c : Context) (full : List String) (name : String) (q : Query) (bare : q.ctes = []) :
    (∀ required, c.layer.kind? name = some .metric →
      c.Followed name (fun n => c.addMetricWith full (c.addBaseUpTo full n) [] name required q)
        (c.addMetric full name required q)) ∧
    (c.layer.kind? name = some .cumulativeMetric →
      c.Followed name (fun n => c.addCumulativeMetricWith (c.addBaseUpTo full n) [] name q)
        (c.addCumulativeMetric full name q)) ∧
    ∀ n ≥ c.layer.manifest.models.length + 2, ∀ model q',
      addModelUpTo c.layer n [] model q' = addModel c.layer model q' := by
  refine ⟨fun required kind => ?_, fun kind => ?_, fun n enough model q' => ?_⟩
  · refine .of_descends bare (mem_built.mpr (.inl kind)) (addMetricWith_descends full [] required q kind) ?_
    refine returns.mono (addMetricWith_pushed (addBase_adds full) (forall_mem_nil _) kind required q) ?_
    exact fun q' h => ⟨h.2, _, h.1, fun x body fit => fit.2.1.isData⟩
  · refine .of_descends bare (mem_built.mpr (.inr kind)) (addCumulativeMetricWith_descends [] q kind) ?_
    refine returns.mono (addCumulativeMetricWith_pushed (addBase_adds full) (forall_mem_nil _) kind q) ?_
    exact fun q' h => ⟨h.2, _, h.1, fun x body fit => fit.2.1.isData⟩
  · have known : (c.layer.manifest.namesOf .model).length = c.layer.manifest.models.length := length_map _
    refine (addModelUpTo_follows c.layer).settles model model nodup_nil (by simp) ?_ ?_ <;>
      simp only [length_nil] <;> omega

/-- Orders with their daily counts, the running total of these and its peaks; and a metric that is built on itself. -/
def chained : Layer where
  manifest := {
    catalog := "mdl"
    schema := "test"
    models := [{ name := "Orders", refSql := some "SELECT * FROM o", columns := [{ name := "day", typeName := "date" }] }]
    metrics :=
      [{ name := "Daily", baseObject := "Orders", dimension := [{ name := "day", typeName := "date" }],
         measure := [{ name := "n", typeName := "integer", expression := some "count(*)" }] },
       { name := "Peaks", baseObject := "Running", dimension := [{ name := "day", typeName := "date" }],
         measure := [{ name := "peak", typeName := "integer", expression := some "max(total)" }] },
       { name := "Loop", baseObject := "Loop" }]
    cumulativeMetrics :=
      [{ name := "Running", baseObject := "Daily", window := { name := "day", refColumn := "day", timeUnit := .day },
         measure := { name := "total", typeName := "integer", operator := "sum", refColumn := "n" } }] }
  checked := by decide +kernel

/-- The metric that is built on itself is refused; the peaks come behind the running total, and that behind the daily
counts. -/
theorem loop_refused_peaks_resolved : let c : Context := ⟨.ofLayer chained, chained⟩
    let q : Query := { body := .table "t" }
    (c.layer.kind? "Loop" = some .metric ∧ ∃ e, c.addMetric [] "Loop" none q = .error e ∧ e.kind = .metric) ∧
      c.layer.kind? "Peaks" = some .metric ∧ ∃ q', c.addMetric [] "Peaks" none q = .ok q' ∧
        (names q').count "Daily" = 1 ∧ (names q').idxOf "Daily" < (names q').idxOf "Running" := by
  intro c q
  have loop := (base_chain_followed c [] "Loop" q rfl).1 none (by decide)
  have peaks := (base_chain_followed c [] "Peaks" q rfl).1 none (by decide)
  obtain ⟨q', ran⟩ : ∃ q', c.addMetric [] "Peaks" none q = .ok q' := by decide +kernel
  have running : c.layer.Reaches "Peaks" "Running" := .single (by decide)
  have resolved := peaks.resolved q' ran
  refine ⟨⟨by decide, loop.rejected "Loop" "Loop" .refl (by decide) (.inr (.inr .refl))⟩, by decide, q', ran, ?_, ?_⟩
  · exact (resolved "Daily" (running.tail (by decide))).1
  · exact (resolved "Running" running).2 "Daily" (by decide)

end Context

end SemanticLayer
