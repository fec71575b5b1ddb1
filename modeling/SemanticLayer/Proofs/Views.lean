import Mathlib.Data.List.Perm.Subperm
import SemanticLayer.Proofs.Gathering
import SemanticLayer.Proofs.Keys
import SemanticLayer.Proofs.Objects

/-! # Views

The views that a query reads become entries, round after round, as the statement of a view may read further views.
Before a view is added, the views below it are followed to see that none of them reads itself. Neither has a bound of
its own: `Context.Inlines` and `Context.Checks` are the runs that come to an end. Every run does, and the bounds in the
definitions are never met.
-/

namespace SemanticLayer

open List

open Sql (Query)
open Judgement (returns returns_bind returns_throw returns_seq)
open With (names Added Pushed)

def Analysis.missing (a : Analysis) (q : Query) : List String :=
  a.views.filter fun view => !With.has q view

theorem Analysis.mem_missing {a : Analysis} {q : Query} {name : String} :
    name ∈ a.missing q ↔ name ∈ a.views ∧ name ∉ names q := by
  rw [missing, mem_filter, Bool.not_eq_true', ← Bool.not_eq_true, With.has_iff]

theorem Layer.kind_of_view {l : Layer} {name : String} {view : View} (found : l.view? name = some view) :
    l.kind? name = some .view :=
  Layer.kind?_eq_some_iff.mpr (find?_isSome_iff.mp (Option.isSome_of_eq_some found))

theorem Layer.base_of_view {l : Layer} {name : String} (kind : l.kind? name = some .view) : l.base? name = none := by
  simp [Layer.base?, Layer.baseObject?, kind]

namespace Context

variable {c : Context} {q q' : Query} {a : Analysis} {name : String}

section Entries

def WritesView (c : Context) (name : String) (body : Query) : Prop :=
  ∃ view statement, c.layer.view? name = some view ∧ readQuery view.statement = .ok statement ∧ body = c.strip statement

theorem WritesView.kind {body : Query} (writes : c.WritesView name body) : c.layer.kind? name = some .view := by
  obtain ⟨view, _, found, _⟩ := writes
  exact Layer.kind_of_view found

theorem addView_pushed (absent : name ∉ names q) : returns.holds (c.addView q name) fun q' =>
    Pushed c.layer c.WritesView q q' ∧ (names q').Perm (name :: names q) := by
  unfold addView
  refine returns_seq fun _ => ?_
  split
  · rename_i view found
    refine returns_bind (fun _ read => read) fun statement read => returns.pure ⟨?_, With.names_push_perm⟩
    refine .push .refl absent ?_ ⟨view, statement, found, read, rfl⟩
    simp [Layer.base_of_view (Layer.kind_of_view found)]
  · exact returns_throw

theorem foldlM_addView_pushed : ∀ {views : List String} {q : Query}, (∀ name ∈ views, name ∉ names q) → views.Nodup →
    returns.holds (views.foldlM c.addView q) fun q' =>
      Pushed c.layer c.WritesView q q' ∧ ∀ name, name ∈ names q' ↔ name ∈ views ∨ name ∈ names q
  | [], q, _, _ => returns.pure ⟨.refl, by simp⟩
  | view :: views, q, fresh, distinct => by
    rw [foldlM_cons]
    rw [forall_mem_cons] at fresh
    rw [nodup_cons] at distinct
    refine returns_bind (addView_pushed fresh.1) ?_
    rintro q₁ ⟨first, named⟩
    have later : ∀ name ∈ views, name ∉ names q₁ := by
      intro name member old
      rcases mem_cons.mp (named.mem_iff.mp old) with rfl | old
      · exact distinct.1 member
      · exact fresh.2 name member old
    refine returns.mono (foldlM_addView_pushed later distinct.2) ?_
    rintro q' ⟨rest, all⟩
    refine ⟨first.trans rest, fun name => ?_⟩
    rw [all, named.mem_iff, mem_cons, mem_cons]
    grind

theorem missing_nodup (analyzed : c.analyze q = .ok a) : (a.missing q).Nodup :=
  ((consistent_of_analyze analyzed).1.objects .view).nodup.filter _

theorem round_pushed (analyzed : c.analyze q = .ok a) : returns.holds ((a.missing q).foldlM c.addView q) fun q' =>
    Pushed c.layer c.WritesView q q' ∧ ∀ name, name ∈ names q' ↔ name ∈ a.missing q ∨ name ∈ names q :=
  foldlM_addView_pushed (fun _ member => (Analysis.mem_missing.mp member).2) (missing_nodup analyzed)

end Entries

section Rounds

/-- A run of the rounds in which views are added, from a query to the answer. It ends when no view that is read is
    missing, or with an error. -/
inductive Inlines (c : Context) : Query → Except CompileError Query → Prop
  | unread {q : Query} {e : CompileError} : c.analyze q = .error e → Inlines c q (.error e)
  | done {q : Query} {a : Analysis} : c.analyze q = .ok a → a.missing q = [] → Inlines c q (.ok q)
  | refused {q : Query} {a : Analysis} {e : CompileError} : c.analyze q = .ok a →
      (a.missing q).foldlM c.addView q = .error e → Inlines c q (.error e)
  | round {q q₁ : Query} {a : Analysis} {r : Except CompileError Query} : c.analyze q = .ok a → a.missing q ≠ [] →
      (a.missing q).foldlM c.addView q = .ok q₁ → Inlines c q₁ r → Inlines c q r

def unwritten (c : Context) (q : Query) : List String :=
  (c.layer.manifest.namesOf .view).filter (· ∉ names q)

theorem unwritten_lt (more : ∀ name ∈ names q, name ∈ names q') (kind : c.layer.kind? name = some .view)
    (absent : name ∉ names q) (present : name ∈ names q') : (c.unwritten q').length < (c.unwritten q).length := by
  have fewer : (c.unwritten q').Sublist (c.unwritten q) :=
    monotone_filter_right _ fun other gone => by simpa using mt (more other) (by simpa using gone)
  refine Nat.lt_of_le_of_ne fewer.length_le fun same => ?_
  have member : name ∈ c.unwritten q := mem_filter.mpr ⟨Layer.kind?_eq_some_iff.mp kind, by simpa using absent⟩
  rw [← fewer.eq_of_length same] at member
  exact absurd present (by simpa using (mem_filter.mp member).2)

/-- Every round adds a view that had no entry, so there are no more rounds than views. -/
theorem addViewsUpTo_inlines : ∀ (n : Nat) (q : Query), (c.unwritten q).length < n → c.Inlines q (c.addViewsUpTo n q)
  | 0, _, enough => absurd enough (Nat.not_lt_zero _)
  | n + 1, q, enough => by
    rw [addViewsUpTo]
    cases analyzed : c.analyze q with
    | error e => exact .unread analyzed
    | ok a =>
      rw [ok_bind]
      split
      · rename_i none
        exact .done analyzed none
      · rename_i pending
        change c.Inlines q ((a.missing q).foldlM c.addView q >>= c.addViewsUpTo n)
        cases ran : (a.missing q).foldlM c.addView q with
        | error e => exact .refused analyzed ran
        | ok q₁ =>
          obtain ⟨pushed, all⟩ := round_pushed analyzed q₁ ran
          obtain ⟨view, member⟩ := exists_mem_of_ne_nil _ pending
          obtain ⟨found, absent⟩ := Analysis.mem_missing.mp member
          have kind := kind_of_found analyzed (show a.Found (.object .view view) from found)
          have fewer := unwritten_lt (fun _ => pushed.names_subset) kind absent ((all view).mpr (.inl member))
          exact .round analyzed pending ran (addViewsUpTo_inlines n q₁ (by omega))

theorem addViews_inlines (c : Context) (q : Query) : c.Inlines q (c.addViews q) := by
  refine addViewsUpTo_inlines _ q (Nat.lt_succ_of_le ?_)
  exact (length_filter_le _ _).trans_eq (length_map _)

theorem Inlines.unique {r r' : Except CompileError Query} (first : c.Inlines q r) (second : c.Inlines q r') :
    r = r' := by
  induction first with
  | unread failed => cases second <;> simp_all
  | done analyzed none => cases second <;> simp_all [pure, Except.pure]
  | refused analyzed failed => cases second <;> simp_all [pure, Except.pure]
  | round analyzed pending ran _ ih =>
    cases second with
    | round analyzed' _ ran' rest =>
      cases analyzed.symm.trans analyzed'
      cases ran.symm.trans ran'
      exact ih rest
    | unread | done | refused => simp_all

theorem views_subset {fits : String → Prop} {a' : Analysis} (added : Added c.layer fits q q')
    (analyzed : c.analyze q = .ok a) (analyzed' : c.analyze q' = .ok a') : a.views ⊆ a'.views := by
  intro view member
  have found : a.Found (.object .view view) := member
  obtain ⟨bound, mention, reads, means⟩ := found_is_read analyzed found
  exact found_of_mentions analyzed' (added.mentions reads.mentions) means fun _ same => by cases same

/-- What a run that ends well leaves: no view that is read is missing, and all that was added is read. -/
theorem Inlines.pushed {r : Except CompileError Query} (inlines : c.Inlines q r) : ∀ q', r = .ok q' →
    Pushed c.layer c.WritesView q q' ∧ ∃ a, c.analyze q' = .ok a ∧ (∀ view ∈ a.views, view ∈ names q') ∧
      ∀ name ∈ names q', name ∈ names q ∨ name ∈ a.views := by
  induction inlines with
  | unread | refused => rintro q' ⟨⟩
  | @done q a analyzed none =>
    rintro _ ⟨⟩
    refine ⟨.refl, a, analyzed, fun view found => ?_, fun _ old => .inl old⟩
    by_contra absent
    exact not_mem_nil (none ▸ Analysis.mem_missing.mpr ⟨found, absent⟩)
  | @round q q₁ a r analyzed _ ran _ ih =>
    intro q' done
    obtain ⟨first, added⟩ := round_pushed analyzed q₁ ran
    obtain ⟨rest, a', analyzed', all, new⟩ := ih q' done
    have whole := first.trans rest
    refine ⟨whole, a', analyzed', all, fun name member => ?_⟩
    rcases new name member with here | found
    · rcases (added name).mp here with missing | old
      · exact .inr (views_subset whole.added.toAdded analyzed analyzed' (Analysis.mem_missing.mp missing).1)
      · exact .inl old
    · exact .inr found

theorem addViews_pushed (q : Query) : returns.holds (c.addViews q) fun q' => Pushed c.layer c.WritesView q q' ∧
    ∃ a, c.analyze q' = .ok a ∧ (∀ view ∈ a.views, view ∈ names q') ∧
      ∀ name ∈ names q', name ∈ names q ∨ name ∈ a.views :=
  (addViews_inlines c q).pushed

end Rounds

section Checking

/-- A run of the check of a view, below a path of views that lead to it. It follows every view that the statement names,
    until a view is on its path or a statement cannot be read. -/
inductive Checks (c : Context) : List String → String → Except CompileError Unit → Prop
  | again {path : List String} {name : String} : name ∈ path →
      Checks c path name (.error (.viewCycle (path ++ [name])))
  | other {path : List String} {name : String} : name ∉ path → c.layer.view? name = none → Checks c path name (.ok ())
  | unread {path : List String} {name : String} {view : View} {e : CompileError} : name ∉ path →
      c.layer.view? name = some view → readQuery view.statement = .error e → Checks c path name (.error e)
  | clear {path : List String} {name : String} {view : View} {body : Query} : name ∉ path →
      c.layer.view? name = some view → readQuery view.statement = .ok body →
      (∀ next ∈ c.viewsOf body, Checks c (path ++ [name]) next (.ok ())) → Checks c path name (.ok ())
  | deeper {path front back : List String} {name next : String} {view : View} {body : Query} {e : CompileError} :
      name ∉ path → c.layer.view? name = some view → readQuery view.statement = .ok body →
      c.viewsOf body = front ++ next :: back → (∀ earlier ∈ front, Checks c (path ++ [name]) earlier (.ok ())) →
      Checks c (path ++ [name]) next (.error e) → Checks c path name (.error e)

theorem forM_cases {α ε : Type} (f : α → Except ε Unit) : ∀ l : List α,
    (∀ a ∈ l, f a = .ok ()) ∧ l.forM f = .ok () ∨ ∃ front a back e, l = front ++ a :: back ∧
      (∀ b ∈ front, f b = .ok ()) ∧ f a = .error e ∧ l.forM f = .error e
  | [] => .inl ⟨forall_mem_nil _, rfl⟩
  | a :: l => by
    have step : (a :: l).forM f = f a >>= fun _ => l.forM f := rfl
    rw [step]
    cases first : f a with
    | error e => exact .inr ⟨[], a, l, e, rfl, forall_mem_nil _, first, rfl⟩
    | ok _ =>
      rw [ok_bind]
      rcases forM_cases f l with ⟨all, passed⟩ | ⟨front, b, back, e, rfl, all, failed, stopped⟩
      · exact .inl ⟨forall_mem_cons.mpr ⟨first, all⟩, passed⟩
      · exact .inr ⟨a :: front, b, back, e, rfl, forall_mem_cons.mpr ⟨first, all⟩, failed, stopped⟩

/-- A path has no view twice, so it never gets longer than there are views. -/
theorem checkViewUpTo_checks : ∀ (n : Nat) (path : List String) (name : String), path.Nodup →
    path ⊆ c.layer.manifest.namesOf .view → c.layer.manifest.views.length < n + path.length →
    c.Checks path name (c.checkViewUpTo n path name)
  | 0, path, _, distinct, known, enough => by
    have short : path.length ≤ c.layer.manifest.views.length :=
      (Nodup.subperm distinct known).length_le.trans_eq (length_map _)
    omega
  | n + 1, path, name, distinct, known, enough => by
    rw [checkViewUpTo]
    by_cases again : name ∈ path
    · rw [if_pos (contains_iff_mem.mpr again)]
      exact .again again
    · rw [if_neg (mt contains_iff_mem.mp again)]
      cases found : c.layer.view? name with
      | none => exact .other again found
      | some view =>
        dsimp only
        cases read : readQuery view.statement with
        | error e => exact .unread again found read
        | ok body =>
          have further : ∀ next, c.Checks (path ++ [name]) next (c.checkViewUpTo n (path ++ [name]) next) := by
            intro next
            refine checkViewUpTo_checks n (path ++ [name]) next ?_ ?_ ?_
            · exact distinct.append (nodup_singleton name) (by simpa using again)
            · have isView := Layer.kind?_eq_some_iff.mp (Layer.kind_of_view found)
              exact append_subset.mpr ⟨known, by simpa using isView⟩
            · rw [length_append, length_singleton]
              omega
          change c.Checks path name ((c.viewsOf body).forM (c.checkViewUpTo n (path ++ [name])))
          rcases forM_cases (c.checkViewUpTo n (path ++ [name])) (c.viewsOf body) with
            ⟨all, passed⟩ | ⟨front, next, back, e, split, all, failed, stopped⟩
          · rw [passed]
            exact .clear again found read fun next member => all next member ▸ further next
          · rw [stopped]
            exact .deeper again found read split (fun earlier member => all earlier member ▸ further earlier)
              (failed ▸ further next)

theorem checkView_checks (c : Context) (name : String) : c.Checks [] name (c.checkView name) :=
  checkViewUpTo_checks _ [] name nodup_nil (nil_subset _) (by simp only [length_nil]; omega)

end Checking

/-- Adding views comes to an end, and so does the check of every view. With an answer, every view that is reported has
one entry, and nothing is added but entries of views that are reported: the query stays as it is otherwise. -/
theorem views_written_once (c : Context) (q : Query) :
    (∀ r, c.Inlines q r ↔ r = c.addViews q) ∧ (∀ name, c.Checks [] name (c.checkView name)) ∧
    ∀ q', c.addViews q = .ok q' → ∃ a, c.analyze q' = .ok a ∧ (∀ view ∈ a.views, (names q').count view = 1) ∧
      { q' with ctes := q.ctes } = q ∧ q.ctes.Sublist q'.ctes ∧
      ∀ cte ∈ q'.ctes, cte ∈ q.ctes ∨ With.nameOf cte ∉ names q ∧ With.nameOf cte ∈ a.views ∧
        c.WritesView (With.nameOf cte) cte.query := by
  have inlines := addViews_inlines c q
  refine ⟨fun r => ⟨fun run => run.unique inlines, fun same => same ▸ inlines⟩, checkView_checks c, ?_⟩
  intro q' ran
  obtain ⟨pushed, a, analyzed, present, reported⟩ := addViews_pushed q q' ran
  refine ⟨a, analyzed, fun view found => ?_, ?_, ?_, fun cte member => ?_⟩
  · exact count_eq_one_of_mem (names_nodup_of_analyze analyzed) (present view found)
  · exact pushed.keeps (p := fun q' => { q' with ctes := q.ctes } = q) (fun _ _ _ _ same => same) (by cases q; rfl)
  · exact pushed.keeps (p := fun q' => q.ctes.Sublist q'.ctes) (fun q₁ _ _ _ kept => kept.trans With.sublist_push)
      (Sublist.refl _)
  · refine (pushed.entry member).imp_right fun new => ⟨new.1, ?_, new.2⟩
    exact (reported _ (With.mem_names_of_mem member)).resolve_left new.1

/-- Orders, those that are paid, and of these the recent ones. -/
def paidOrders : Layer where
  manifest := {
    catalog := "mdl"
    schema := "test"
    views := [{ name := "Recent", statement := "SELECT * FROM Paid" },
      { name := "Paid", statement := "SELECT * FROM o" }] }
  checked := by decide +kernel

/-- A view that only another view reads has an entry, too. -/
theorem paid_written_for_recent : let c : Context := ⟨.ofLayer paidOrders, paidOrders⟩
    ∃ q q' a, readQuery "SELECT * FROM Recent" = .ok q ∧ c.addViews q = .ok q' ∧ c.analyze q' = .ok a ∧
      "Paid" ∉ names q ∧ "Paid" ∈ a.views ∧ (names q').count "Paid" = 1 := by
  intro c
  have run : ∃ q, readQuery "SELECT * FROM Recent" = .ok q ∧ ∃ q', c.addViews q = .ok q' ∧ "Paid" ∉ names q ∧
      "Paid" ∈ names q' := by
    decide +kernel
  obtain ⟨q, read, q', ran, absent, present⟩ := run
  obtain ⟨a, analyzed, once, _, _, new⟩ := (views_written_once c q).2.2 q' ran
  obtain ⟨cte, member, called⟩ := mem_map.mp present
  have reported : "Paid" ∈ a.views := by
    rcases new cte member with old | added
    · exact absurd (called ▸ With.mem_names_of_mem old) absent
    · exact called ▸ added.2.1
  exact ⟨q, q', a, read, ran, analyzed, absent, reported, once "Paid" reported⟩

end Context

end SemanticLayer
