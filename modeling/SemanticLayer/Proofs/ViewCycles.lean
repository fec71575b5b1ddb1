import Mathlib.Data.List.Chain
import SemanticLayer.Proofs.Views

/-! # Views that read themselves

The check of a view goes by the last parts of the names in a statement, an analysis by full names. A statement names
every view that its analysis reports, and possibly more: `raw.V` names a view `V`. A check fails if and only if it
comes to a view that leads back to itself by the views that are named.
-/

namespace SemanticLayer

open List

open Sql (Query)
open Relation (ReflTransGen TransGen)

/-- Something that leads back to itself can be reached. -/
def Circular {α : Type} (next : α → α → Prop) (start : α) : Prop :=
  ∃ a, ReflTransGen next start a ∧ TransGen next a a

theorem Circular.mono {α : Type} {next next' : α → α → Prop} {a : α}
    (weaker : ∀ b d, ReflTransGen next a b → next b d → next' b d) (circular : Circular next a) : Circular next' a := by
  obtain ⟨d, reaches, back⟩ := circular
  have along : ∀ {x y}, ReflTransGen next a x → ReflTransGen next x y → ReflTransGen next' x y := by
    intro x y start path
    induction path with
    | refl => exact .refl
    | tail before step ih => exact ih.tail (weaker _ _ (start.trans before) step)
  refine ⟨d, along .refl reaches, ?_⟩
  obtain ⟨x, before, last⟩ := TransGen.tail'_iff.mp back
  exact TransGen.tail'_iff.mpr ⟨x, along reaches before, weaker x d (reaches.trans before) last⟩

theorem transGen_of_isChain {α : Type} {next : α → α → Prop} {path : List α} {a : α}
    (chain : (path ++ [a]).IsChain next) (again : a ∈ path) : TransGen next a a := by
  have ordered : (path ++ [a]).Pairwise (TransGen next) := (chain.imp fun _ _ => TransGen.single).pairwise
  exact (pairwise_append.mp ordered).2.2 a again a mem_cons_self

namespace Context

variable {c : Context} {path : List String} {name : String} {other : String} {r : Except CompileError Unit}

/-- A statement names a view. -/
def NamesView (c : Context) (name other : String) : Prop :=
  ∃ view body, c.layer.view? name = some view ∧ readQuery view.statement = .ok body ∧ other ∈ c.viewsOf body

/-- The analysis of a statement reports a view. -/
def ReadsView (c : Context) (name other : String) : Prop :=
  ∃ view body a, c.layer.view? name = some view ∧ readQuery view.statement = .ok body ∧ c.analyze body = .ok a ∧
    other ∈ a.views

/-- The statements of all views are queries. -/
def ReadableViews (c : Context) : Prop :=
  ∀ view ∈ c.layer.manifest.views, ∃ body, readQuery view.statement = .ok body

theorem mem_viewsOf {statement : Query} : name ∈ c.viewsOf statement ↔
    name ∈ statement.relations ∧ c.layer.kind? name = some .view := by
  have ordered : ∀ names : List String, name ∈ orderedNames names ↔ name ∈ names := by
    intro names
    induction names with
    | nil => exact Iff.rfl
    | cons first names ih => rw [orderedNames, foldr_cons, mem_insertName, mem_cons, ← ih, orderedNames]
  have isView : ∀ kind : Option ObjectKind, (kind == some .view) = true ↔ kind = some .view := by
    rintro (_ | kind)
    · decide
    · cases kind <;> decide
  rw [viewsOf, ordered, mem_filter, isView]

theorem NamesView.of_reads (reads : c.ReadsView name other) : c.NamesView name other := by
  obtain ⟨view, body, a, found, read, analyzed, reported⟩ := reads
  have finding : a.Found (.object .view other) := reported
  obtain ⟨bound, mention, reads, means⟩ := found_is_read analyzed finding
  refine ⟨view, body, found, read, mem_viewsOf.mpr ⟨?_, kind_of_found analyzed finding⟩⟩
  cases means with
  | object named _ => exact reads.mentions.mem_relations (last_of_tableName named)

/-- A check that fails shows the views it followed, up to one that comes again. -/
theorem Checks.shown (readable : c.ReadableViews) (checks : c.Checks path name r)
    (chain : (path ++ [name]).IsChain c.NamesView) : r = .ok () ∨ ∃ front last,
      r = .error (.viewCycle (front ++ [last])) ∧ (path ++ [name]) <+: (front ++ [last]) ∧ last ∈ front ∧
      (front ++ [last]).IsChain c.NamesView ∧ ReflTransGen c.NamesView name last := by
  induction checks with
  | again here => exact .inr ⟨_, _, rfl, prefix_rfl, here, chain, .refl⟩
  | other | clear => exact .inl rfl
  | @unread path name view e _ found failed =>
    obtain ⟨body, read⟩ := readable view (mem_of_find?_eq_some found)
    rw [read] at failed
    cases failed
  | @deeper path front back name next view body e _ found read split _ _ _ ih =>
    have step : c.NamesView name next := ⟨view, body, found, read, by rw [split]; simp⟩
    have longer : (path ++ [name] ++ [next]).IsChain c.NamesView := by
      rw [isChain_append]
      exact ⟨chain, .singleton _, by simpa using step⟩
    rcases ih longer with passed | ⟨front, last, same, begins, here, walk, reaches⟩
    · cases passed
    · exact .inr ⟨front, last, same, (prefix_append _ _).trans begins, here, walk, .head step reaches⟩

theorem Checks.next (checks : c.Checks path name (.ok ())) (step : c.NamesView name other) :
    name ∉ path ∧ c.Checks (path ++ [name]) other (.ok ()) := by
  obtain ⟨view, body, found, read, named⟩ := step
  cases checks with
  | other fresh none =>
    rw [none] at found
    cases found
  | clear fresh found' read' all =>
    cases found.symm.trans found'
    cases read.symm.trans read'
    exact ⟨fresh, all other named⟩

theorem Checks.fresh (checks : c.Checks path name r) (passed : r = .ok ()) : name ∉ path := by
  cases checks with
  | again => cases passed
  | other fresh | unread fresh | clear fresh | deeper fresh => exact fresh

theorem Checks.apart (reaches : ReflTransGen c.NamesView name other) :
    ∀ {path : List String}, c.Checks path name (.ok ()) → other ∉ path := by
  induction reaches using ReflTransGen.head_induction_on with
  | refl => exact fun checks => checks.fresh rfl
  | head step _ ih => exact fun checks here => ih (checks.next step).2 (mem_append_left _ here)

theorem Checks.not_circular (checks : c.Checks path name (.ok ())) : ¬ Circular c.NamesView name := by
  rintro ⟨other, reaches, back⟩
  induction reaches using ReflTransGen.head_induction_on generalizing path with
  | refl =>
    obtain ⟨first, step, rest⟩ := TransGen.head'_iff.mp back
    exact (Checks.apart rest (checks.next step).2) (mem_append_right _ mem_cons_self)
  | head step _ ih => exact ih (checks.next step).2

/-- The check of a view fails if and only if a view that names itself, directly or through other views, can be reached.
The views that are reported are named, so a cycle of these is found; and if nothing else is named, no other is. -/
theorem checkView_cycle_iff (c : Context) (readable : c.ReadableViews) (name : String) :
    ((∃ shown, c.checkView name = .error (.viewCycle shown)) ↔ Circular c.NamesView name) ∧
    (c.checkView name = .ok () ↔ ¬ Circular c.NamesView name) ∧
    (∀ shown, c.checkView name = .error (.viewCycle shown) → ∃ front last, shown = front ++ [last] ∧ last ∈ front ∧
      [name] <+: shown ∧ shown.IsChain c.NamesView) ∧
    (Circular c.ReadsView name → ∃ shown, c.checkView name = .error (.viewCycle shown)) ∧
    ((∀ view other, ReflTransGen c.NamesView name view → c.NamesView view other → c.ReadsView view other) →
      ((∃ shown, c.checkView name = .error (.viewCycle shown)) ↔ Circular c.ReadsView name)) := by
  have checks := checkView_checks c name
  have failing : (∃ shown, c.checkView name = .error (.viewCycle shown)) ↔ Circular c.NamesView name := by
    refine ⟨?_, fun circular => ?_⟩
    · rintro ⟨shown, failed⟩
      rcases checks.shown readable (.singleton _) with passed | ⟨front, last, _, _, again, walk, reaches⟩
      · rw [passed] at failed
        cases failed
      · exact ⟨last, reaches, transGen_of_isChain walk again⟩
    · rcases checks.shown readable (.singleton _) with passed | ⟨front, last, same, _⟩
      · exact absurd circular (passed ▸ checks).not_circular
      · exact ⟨_, same⟩
  have reads : Circular c.ReadsView name → Circular c.NamesView name := .mono fun _ _ _ => .of_reads
  refine ⟨failing, ⟨fun passed => (passed ▸ checks).not_circular, fun none => ?_⟩, fun shown failed => ?_,
    fun circular => failing.mpr (reads circular), fun agree => failing.trans ⟨.mono agree, reads⟩⟩
  · rcases checks.shown readable (.singleton _) with passed | ⟨front, last, same, _⟩
    · exact passed
    · exact absurd (failing.mp ⟨_, same⟩) none
  · rcases checks.shown readable (.singleton _) with passed | ⟨front, last, same, begins, again, walk, _⟩
    · rw [passed] at failed
      cases failed
    · cases same.symm.trans failed
      exact ⟨front, last, rfl, again, begins, walk⟩

/-- Orders and buyers read each other. Sales read a table of the same name in another schema. -/
def crossedViews : Layer where
  manifest := {
    catalog := "mdl"
    schema := "test"
    views := [{ name := "Orders", statement := "SELECT * FROM Buyers" },
      { name := "Buyers", statement := "SELECT * FROM Orders" },
      { name := "Sales", statement := "SELECT * FROM raw.Sales" }] }
  checked := by decide +kernel

/-- The check of the orders fails as they read themselves; that of the sales fails, too, although they read no view. -/
theorem sales_refused_without_cycle : let c : Context := ⟨.ofLayer crossedViews, crossedViews⟩
    c.ReadableViews ∧ (∃ shown, c.checkView "Orders" = .error (.viewCycle shown)) ∧
      (∃ shown, c.checkView "Sales" = .error (.viewCycle shown)) ∧ ¬ Circular c.ReadsView "Sales" := by
  intro c
  have readable : c.ReadableViews := by
    change ∀ view ∈ crossedViews.manifest.views, ∃ body, readQuery view.statement = .ok body
    decide +kernel
  have edge : ∀ {name other : String} {view : View}, c.layer.view? name = some view →
      (∃ body, readQuery view.statement = .ok body ∧ ∃ a, c.analyze body = .ok a ∧ other ∈ a.views) →
      c.ReadsView name other := by
    rintro name other view found ⟨body, read, a, analyzed, reported⟩
    exact ⟨view, body, a, found, read, analyzed, reported⟩
  have buyers : c.ReadsView "Orders" "Buyers" := edge rfl (by decide +kernel)
  have orders : c.ReadsView "Buyers" "Orders" := edge rfl (by decide +kernel)
  have run : ∃ body, readQuery "SELECT * FROM raw.Sales" = .ok body ∧ "Sales" ∈ c.viewsOf body ∧
      ∃ a, c.analyze body = .ok a ∧ a.views = [] := by
    decide +kernel
  obtain ⟨body, read, named, a, analyzed, none⟩ := run
  have alone : ∀ other, ¬ c.ReadsView "Sales" other := by
    rintro other ⟨view, _, _, found, read', analyzed', reported⟩
    cases found
    cases read.symm.trans read'
    cases analyzed.symm.trans analyzed'
    rw [none] at reported
    cases reported
  refine ⟨readable, ?_, ?_, ?_⟩
  · exact (checkView_cycle_iff c readable "Orders").2.2.2.1 ⟨"Orders", .refl, .tail (.single buyers) orders⟩
  · exact (checkView_cycle_iff c readable "Sales").1.mpr ⟨"Sales", .refl, .single ⟨_, body, rfl, read, named⟩⟩
  · rintro ⟨other, reaches, back⟩
    rcases ReflTransGen.cases_head reaches with rfl | ⟨next, step, _⟩
    · obtain ⟨next, step, _⟩ := TransGen.head'_iff.mp back
      exact alone next step
    · exact alone next step

end Context

end SemanticLayer
