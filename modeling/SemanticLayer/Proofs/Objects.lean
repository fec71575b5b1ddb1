import Mathlib.Logic.Relation
import SemanticLayer.Proofs.Entries
import SemanticLayer.Proofs.Findings

/-! # Adding objects

Adding an object to a WITH clause adds the objects it is built on, and no entry of a name that is
there. Objects that are being added are not added by their bases.
-/

namespace SemanticLayer

open List

open Sql (Query)
open Judgement (returns returns_bind returns_throw)
open With (names Added AddedOnce Pushed)

variable {l : Layer} {name base : String} {q body : Query} {fits : String → Query → Prop} {visiting : List String}

/-- A name of a model, metric or cumulative metric. -/
def Layer.IsData (l : Layer) (name : String) : Prop :=
  ∃ kind, l.kind? name = some kind ∧ kind ≠ .view

theorem Layer.isData_of_model (model : l.kind? name = some .model) : l.IsData name :=
  ⟨.model, model, by decide⟩

theorem Layer.base_of_model {m : Model} (found : l.model? name = some m) : l.base? name = m.baseModel := by
  simp [Layer.base?, Layer.kind_of_model found, found]

theorem Layer.base_of_metric {m : Metric} (kind : l.kind? name = some .metric) (found : l.metric? name = some m) :
    l.base? name = some m.baseObject := by
  simp [Layer.base?, Layer.baseObject?, kind, found]

theorem Layer.base_of_cumulativeMetric {m : CumulativeMetric} (kind : l.kind? name = some .cumulativeMetric)
    (found : l.cumulativeMetric? name = some m) : l.base? name = some m.baseObject := by
  simp [Layer.base?, Layer.baseObject?, kind, found]

/-- A chain of base objects leads from an object to another one, through objects that have no entries. -/
abbrev Layer.LeadsTo (l : Layer) (q : Query) : String → String → Prop :=
  Relation.ReflTransGen fun x y => x ∉ names q ∧ l.baseObject? x = some y

theorem Layer.base_of_baseObject (based : l.baseObject? name = some base) : l.base? name = some base := by
  unfold Layer.base?
  split
  · rename_i model
    simp [Layer.baseObject?, model] at based
  · exact based

/-- With an object that has been added, all that it is built on has entries. -/
theorem With.Added.leads {fits : String → Prop} {q' : Query} {x y : String} (added : Added l fits q q')
    (leads : l.LeadsTo q x y) (present : x ∈ names q') : y ∈ names q' := by
  induction leads with
  | refl => exact present
  | tail _ step ih => exact added.based _ ih step.1 _ (Layer.base_of_baseObject step.2)

theorem foldlM_pushed {α : Type} {g : α → String} {f : Query → α → Except CompileError Query} :
    ∀ {as : List α}, (∀ a ∈ as, ∀ q, returns.holds (f q a) fun q' =>
      Pushed l fits q q' ∧ g a ∈ names q') → ∀ q, returns.holds (as.foldlM f q) fun q' =>
      Pushed l fits q q' ∧ ∀ a ∈ as, g a ∈ names q'
  | [], _, q => returns.pure ⟨.refl, by simp⟩
  | a :: as, each, q => by
    rw [foldlM_cons]
    refine returns_bind (each a mem_cons_self q) fun q' first => ?_
    have rest := foldlM_pushed (fun a' member => each a' (mem_cons_of_mem a member)) q'
    refine returns.mono rest fun q'' h => ⟨first.1.trans h.1, ?_⟩
    exact forall_mem_cons.mpr ⟨h.1.names_subset first.2, h.2⟩

/-- An entry is put behind the entries it is built on, which did not add it. -/
theorem pushed_behind_bases {q₁ : Query} (absent : name ∉ names q) (fresh : name ∉ visiting) (fit : fits name body)
    (pushed : Pushed l (fun new body => new ∉ name :: visiting ∧ fits new body) q q₁)
    (based : ∀ base, l.base? name = some base → base ∈ names q₁) :
    Pushed l (fun new body => new ∉ visiting ∧ fits new body) q (With.push l name body q₁) ∧
      name ∈ names (With.push l name body q₁) := by
  have weaker : Pushed l (fun new body => new ∉ visiting ∧ fits new body) q q₁ :=
    pushed.mono fun new body _ h => ⟨fun member => h.1 (mem_cons_of_mem _ member), h.2⟩
  refine ⟨weaker.push ?_ based ⟨fresh, fit⟩, With.names_push_perm.mem_iff.mpr mem_cons_self⟩
  intro member
  rcases (pushed.addedOnce fun _ _ h => h.1).fits_of_mem member with old | new
  · exact absent old
  · exact new mem_cons_self

section Models

variable (l : Layer)

def Layer.WritesModel (name : String) (body : Query) : Prop :=
  ∃ m sql, l.model? name = some m ∧ m.sql l = .ok sql ∧ readQuery sql = .ok body

theorem Layer.WritesModel.kind {l : Layer} (writes : l.WritesModel name body) : l.kind? name = some .model := by
  obtain ⟨m, _, found, _⟩ := writes
  exact Layer.kind_of_model found

theorem addModelUpTo_pushed : ∀ (n : Nat) (visiting : List String) (name : String) (q : Query),
    returns.holds (addModelUpTo l n visiting name q) fun q' =>
      Pushed l (fun new body => new ∉ visiting ∧ l.WritesModel new body) q q' ∧ name ∈ names q'
  | 0, _, _, _ => returns_throw
  | n + 1, visiting, name, q => by
    rw [addModelUpTo]
    dsimp only
    split
    · rename_i present
      exact returns.pure ⟨.refl, With.has_iff.mp present⟩
    · rename_i absent
      rw [With.has_iff] at absent
      split
      · exact returns_throw
      · rename_i fresh
        rw [contains_iff_mem] at fresh
        split
        · rename_i m found
          have entered : ∀ q₁, Pushed l (fun new body => new ∉ name :: visiting ∧ l.WritesModel new body) q q₁ →
              (∀ base, m.baseModel = some base → base ∈ names q₁) → returns.holds
                (do let body ← readQuery (← m.sql l); return With.push l name body q₁) fun q' =>
                Pushed l (fun new body => new ∉ visiting ∧ l.WritesModel new body) q q' ∧ name ∈ names q' := by
            intro q₁ pushed based
            rw [← Layer.base_of_model found] at based
            refine returns_bind (fun _ written => written) fun sql written =>
              returns_bind (fun _ read => read) fun body read => returns.pure ?_
            exact pushed_behind_bases absent fresh ⟨m, sql, found, written, read⟩ pushed based
          split
          · rename_i base isBase
            refine returns_bind (addModelUpTo_pushed n (name :: visiting) base q) fun q₁ h =>
              entered q₁ h.1 ?_
            rw [isBase]
            rintro _ ⟨⟩
            exact h.2
          · rename_i isBase
            rw [pure_bind]
            refine entered q .refl ?_
            rw [isBase]
            exact nofun
        · exact returns_throw

theorem addModel_pushed (name : String) (q : Query) : returns.holds (addModel l name q) fun q' =>
    Pushed l l.WritesModel q q' ∧ name ∈ names q' :=
  returns.mono (addModelUpTo_pushed l _ [] name q) fun _ h => ⟨h.1.mono fun _ _ _ fit => fit.2, h.2⟩

theorem addModels_pushed (models : List String) (q : Query) : returns.holds (addModels l models q) fun q' =>
    Pushed l l.WritesModel q q' ∧ ∀ name ∈ models, name ∈ names q' :=
  foldlM_pushed (fun name _ q => addModel_pushed l name q) q

theorem addModels_added (models : List String) (q : Query) : returns.holds (addModels l models q) fun q' =>
      AddedOnce l (fun new => l.kind? new = some .model) q q' ∧ ∀ name ∈ models, name ∈ names q' :=
  returns.mono (addModels_pushed l models q) fun _ h => ⟨h.1.addedOnce fun _ _ writes => writes.kind, h.2⟩

end Models

namespace Context

variable (c : Context) {addBase : List String → String → String → Query → Except CompileError Query}

/-- The query that is written for an object. Of a metric all columns may be required, or some. -/
inductive Writes (c : Context) (required : Option (List String)) (name : String) : Query → Prop
  | model {body : Query} : c.layer.WritesModel name body → Writes c required name body
  | metric {m : Metric} {body joined : Query} {targets : List String} : c.layer.kind? name = some .metric →
      c.layer.metric? name = some m → readQuery (m.sql required) = .ok body →
      c.joinRelationships body = .ok (joined, targets) → Writes c required name joined
  | cumulativeMetric {m : CumulativeMetric} {sql : String} {body : Query} :
      c.layer.kind? name = some .cumulativeMetric → c.layer.cumulativeMetric? name = some m → m.sql = .ok sql →
      readQuery sql = .ok body → Writes c required name body

theorem Writes.isData {c : Context} {required : Option (List String)}
    (writes : c.Writes required name body) : c.layer.IsData name := by
  cases writes with
  | model writes => exact Layer.isData_of_model writes.kind
  | metric kind | cumulativeMetric kind => exact ⟨_, kind, by decide⟩

/-- An object that may be added along with another one: a model, or one that it is built on. -/
def Underlies (q : Query) (name new : String) : Prop :=
  c.layer.kind? new = some .model ∨ c.layer.LeadsTo q name new

/-- How the base object of an owner is added: it is there then, and objects that are being added are not
    added again. Only metrics and cumulative metrics are being added. -/
def AddsBase (addBase : List String → String → String → Query → Except CompileError Query) : Prop :=
  ∀ visiting owner base q, (∀ name ∈ visiting, c.layer.kind? name ≠ some .model) →
    returns.holds (addBase visiting owner base q) fun q' =>
      Pushed c.layer (fun new body => new ∉ visiting ∧ c.Writes none new body ∧ c.Underlies q base new) q q' ∧
        base ∈ names q'

theorem enter_eq_ok {entered : List String}
    (entering : enter visiting name = .ok entered) : name ∉ visiting ∧ entered = name :: visiting := by
  unfold enter at entering
  split at entering
  · cases entering
  · rename_i fresh
    cases entering
    exact ⟨fun member => fresh (contains_iff_mem.mpr member), rfl⟩

variable {c}

theorem Underlies.head {new : String} (absent : name ∉ names q)
    (based : c.layer.baseObject? name = some base) (under : c.Underlies q base new) : c.Underlies q name new :=
  under.imp_right fun leads => .head ⟨absent, based⟩ leads

/-- What is added for a metric: it is written with the columns that are asked for, and what it is built on is
    written in full. -/
theorem addMetricWith_pushed {full : List String} (adds : c.AddsBase addBase)
    (others : ∀ name ∈ visiting, c.layer.kind? name ≠ some .model) (kind : c.layer.kind? name = some .metric)
    (required : Option (List String)) (q : Query) :
    returns.holds (c.addMetricWith full addBase visiting name required q) fun q' =>
      Pushed c.layer (fun new body => new ∉ visiting ∧
        c.Writes (if new = name ∧ name ∉ full then required else none) new body ∧ c.Underlies q name new) q q' ∧
      name ∈ names q' := by
  unfold addMetricWith
  dsimp only
  split
  · rename_i present
    exact returns.pure ⟨.refl, With.has_iff.mp present⟩
  · rename_i absent
    rw [With.has_iff] at absent
    split
    · rename_i m found
      refine returns_bind (fun _ entering => enter_eq_ok entering) ?_
      rintro _ ⟨fresh, rfl⟩
      have inside : ∀ other ∈ name :: visiting, c.layer.kind? other ≠ some .model :=
        forall_mem_cons.mpr ⟨by rw [kind]; decide, others⟩
      refine returns_bind (adds (name :: visiting) m.name m.baseObject q inside) ?_
      rintro q₁ ⟨pushed, present⟩
      refine returns_bind (fun _ read => read) fun body read =>
        returns_bind (fun _ joins => joins) fun (joined, targets) joins =>
        returns_bind (addModels_pushed c.layer targets q₁) ?_
      rintro q₂ ⟨models, _⟩
      have based : c.layer.baseObject? name = some m.baseObject := by simp [Layer.baseObject?, kind, found]
      have below : Pushed c.layer (fun new body => new ∉ name :: visiting ∧
          c.Writes (if new = name ∧ name ∉ full then required else none) new body ∧ c.Underlies q name new) q q₁ :=
        pushed.mono ?_
      · refine returns.pure (pushed_behind_bases absent fresh ⟨.metric kind found ?_ joins, .inr .refl⟩
          (below.trans (models.mono ?_)) ?_)
        · convert read using 3
          by_cases all : name ∈ full <;> simp [all]
        · exact fun new body _ writes => ⟨fun member => inside new member writes.kind, .model writes, .inl writes.kind⟩
        · rw [Layer.base_of_metric kind found]
          rintro _ ⟨⟩
          exact models.names_subset present
      · rintro new body _ ⟨other, writes, under⟩
        have apart : ¬ (new = name ∧ name ∉ full) := fun same => other (same.1 ▸ mem_cons_self)
        rw [if_neg apart]
        exact ⟨other, writes, under.head absent based⟩
    · exact returns_throw

theorem addCumulativeMetricWith_pushed (adds : c.AddsBase addBase)
    (others : ∀ name ∈ visiting, c.layer.kind? name ≠ some .model) (kind : c.layer.kind? name = some .cumulativeMetric)
    (q : Query) : returns.holds (c.addCumulativeMetricWith addBase visiting name q) fun q' =>
      Pushed c.layer (fun new body => new ∉ visiting ∧ c.Writes none new body ∧ c.Underlies q name new) q q' ∧
      name ∈ names q' := by
  unfold addCumulativeMetricWith
  split
  · rename_i present
    exact returns.pure ⟨.refl, With.has_iff.mp present⟩
  · rename_i absent
    rw [With.has_iff] at absent
    split
    · rename_i m found
      refine returns_bind (fun _ entering => enter_eq_ok entering) ?_
      rintro _ ⟨fresh, rfl⟩
      have inside : ∀ other ∈ name :: visiting, c.layer.kind? other ≠ some .model :=
        forall_mem_cons.mpr ⟨by rw [kind]; decide, others⟩
      refine returns_bind (adds (name :: visiting) m.name m.baseObject q inside) ?_
      rintro q₁ ⟨pushed, present⟩
      have based : c.layer.baseObject? name = some m.baseObject := by simp [Layer.baseObject?, kind, found]
      refine returns_bind (fun _ written => written) fun sql written =>
        returns_bind (fun _ read => read) fun body read => returns.pure
        (pushed_behind_bases absent fresh ⟨.cumulativeMetric kind found written read, .inr .refl⟩
          (pushed.mono fun _ _ _ h => ⟨h.1, h.2.1, h.2.2.head absent based⟩) ?_)
      rw [Layer.base_of_cumulativeMetric kind found]
      rintro _ ⟨⟩
      exact present
    · exact returns_throw

theorem addBaseUpTo_adds (full : List String) : ∀ n, c.AddsBase (c.addBaseUpTo full n)
  | 0 => fun _ _ _ _ _ => returns_throw
  | n + 1 => by
    intro visiting owner base q others
    rw [addBaseUpTo]
    split
    · refine returns.mono (addModel_pushed c.layer base q) fun q' h => ⟨h.1.mono ?_, h.2⟩
      exact fun new body _ writes => ⟨fun member => others new member writes.kind, .model writes, .inl writes.kind⟩
    · rename_i kind
      refine returns.mono (addMetricWith_pushed (addBaseUpTo_adds full n) others kind none q) fun q' h => ?_
      simpa only [ite_self] using h
    · rename_i kind
      exact addCumulativeMetricWith_pushed (addBaseUpTo_adds full n) others kind q
    · exact returns_throw

theorem addBase_adds (full : List String) : c.AddsBase (c.addBase full) :=
  addBaseUpTo_adds full _

end Context

end SemanticLayer
