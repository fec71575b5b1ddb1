import SemanticLayer.Proofs.Findings
import SemanticLayer.Proofs.Walks
import SemanticLayer.Compile.Metrics

/-! # What replacing roll-ups does to reading

A roll-up becomes a derived table over the base object of its metric. Afterwards no roll-up is left,
every metric that was rolled up is known, and nothing else is read but what the queries of roll-ups
read.
-/

namespace SemanticLayer

open Sql

deriving instance ReflBEq, LawfulBEq for TimeUnit

/-- A roll-up along one of the grains of its metric, by a unit the grain allows. -/
structure Rollup.Allowed (r : Rollup) : Prop where
  grain : r.grain ∈ r.metric.timeGrain
  unit : r.grain.dateParts = [] ∨ r.unit ∈ r.grain.dateParts

theorem Rollup.resolve_eq_ok {l : Layer} {args : List (Expr Query)} {r : Rollup}
    (resolved : Rollup.resolve l args = .ok r) : r.metric ∈ l.manifest.metrics ∧ r.Allowed := by
  have run : Judgement.returns.holds (Rollup.ofArguments l args) fun r =>
      r.metric ∈ l.manifest.metrics ∧ r.Allowed := by
    unfold Rollup.ofArguments
    refine Judgement.returns_seq fun names => ?_
    split
    · split
      · rename_i metric foundMetric
        split
        · rename_i grain foundGrain
          split
          · rename_i unit _
            split
            · exact Judgement.returns_throw
            · rename_i allowed
              refine Judgement.returns.pure ⟨List.mem_of_find?_eq_some foundMetric,
                List.mem_of_find?_eq_some foundGrain, ?_⟩
              change grain.dateParts = [] ∨ unit ∈ grain.dateParts
              by_cases any : grain.dateParts = []
              · exact .inl any
              · simpa [any] using allowed
          · exact Judgement.returns_throw
        · exact Judgement.returns_throw
      · exact Judgement.returns_throw
    · exact Judgement.returns_throw
  unfold Rollup.resolve at resolved
  cases ok : Rollup.ofArguments l args with
  | error fault => rw [ok] at resolved; cases resolved
  | ok r' =>
    rw [ok] at resolved
    cases resolved
    exact run r ok

def Sql.Mention.IsRollup (mention : Mention) : Prop :=
  ∃ name args, mention = .call name args ∧ Rollup.isName name = true

/-- A mention stands in the query of a roll-up of one of some metrics. -/
def RollupReads (l : Layer) (reach : Reach) (metrics : Metric → Prop) (mention : Mention) : Prop :=
  ∃ (args : List (Option String)) (r : Rollup) (q : Query), Rollup.Of l args r ∧ metrics r.metric ∧
    readQuery r.sql = .ok q ∧ q.Mentions reach mention

/-- The change that replacing roll-ups makes: a roll-up goes, its metric is known, and its query
    comes. Only clauses that no analysis visits may lose something else. -/
def rollupChange (l : Layer) (reach : Reach) (metrics : Metric → Prop) : Change where
  kept mention mention' := mention' = mention ∧ ¬mention.IsRollup
  gone mention := reach = .written ∨ ∃ name args r, mention = .call name args ∧ Rollup.Of l args r ∧ metrics r.metric
  new mention := RollupReads l reach metrics mention ∧ ¬mention.IsRollup

namespace Context

variable {c : Context} {reach : Reach} {metrics : Metric → Prop}

abbrev rolling (metrics : Metric → Prop) : Judgement (StateT (List Metric) (Except CompileError)) :=
  Judgement.recording (fun (noted : List Metric) m => m ∈ noted) metrics

theorem replaceRollup_visits {nested : Query → StateT (List Metric) (Except CompileError) Query}
    (follows : ∀ q, (rolling metrics).holds (nested q) (q.Follows (rollupChange c.layer reach metrics) reach)) :
    Visits (rolling metrics) (rollupChange c.layer reach metrics) reach (c.replaceRollup nested) where
  other r notTable := by
    cases r with
    | table => cases notTable
    | derived | nested | unnest | pivot | other => rfl
  table r isTable := by
    let J := rolling metrics
    cases r with
    | derived | nested | unnest | pivot | other => cases isTable
    | table name args ordinality label hints =>
      cases args with
      | none =>
        refine J.pure ⟨.single ⟨rfl, ?_⟩, fun x member => .inl member, fun x member => .inl member⟩
        rintro ⟨_, _, same, _⟩
        cases same
      | some args =>
        unfold replaceRollup
        dsimp only
        split
        · rename_i other
          refine J.pure ⟨.single ⟨rfl, ?_⟩, fun x member => .inl member, fun x member => .inl member⟩
          rintro ⟨_, _, same, named⟩
          cases same
          rw [named] at other
          cases other
        · have noted : ∀ r : Rollup, J.holds (modify (· ++ [r.metric])) fun _ => metrics r.metric :=
            fun r => Judgement.recording_modify (fun _ _ old => List.mem_append_left _ old)
              fun _ all => all _ (List.mem_append_right _ List.mem_cons_self)
          refine J.bind Judgement.recording_lift fun r => J.bind Judgement.recording_lift fun query =>
            J.bind (noted r) fun _ => J.bind (follows query) fun query' => J.pure ?_
          intro follows metric read resolved
          have named : Rollup.Of c.layer (args.map Expr.name?) r := ⟨args, rfl, resolved⟩
          refine ⟨⟨?_, ?_⟩, ?_, ?_⟩
          · rintro mention member
            cases List.mem_singleton.mp member
            exact .inr (.inr ⟨name, _, r, rfl, named, metric⟩)
          · exact fun mention member => nomatch member
          · intro x member
            cases reach with
            | visited => cases member
            | written => exact .inr fun _ => .inl rfl
          · intro x member
            cases List.mem_singleton.mp member
            refine .inr fun mention ⟨bound, reads⟩ => ?_
            rcases (follows [] bound).2 mention reads with ⟨_, reads, rfl, other⟩ | new
            · exact ⟨⟨_, r, query, named, metric, read, reads.mentions⟩, other⟩
            · exact new

theorem replaceRollupsUpTo_alike (n : Nat) (q : Query)
    (follows : ∀ q, (rolling metrics).holds (c.replaceRollupsUpTo n q)
      (q.Follows (rollupChange c.layer reach metrics) reach)) : (rolling metrics).holds (c.replaceRollupsUpTo (n + 1) q)
      (q.Alike (rollupChange c.layer reach metrics) reach (Query.Follows (rollupChange c.layer reach metrics) reach)) :=
  Query.walk_alike (Expr.Walk.keep_keeps follows) (replaceRollup_visits follows) q

theorem replaceRollupsUpTo_follows : ∀ (n : Nat) (q : Query), (rolling metrics).holds (c.replaceRollupsUpTo n q)
      (q.Follows (rollupChange c.layer reach metrics) reach)
  | 0, _ => Judgement.recording_throw
  | n + 1, q => (rolling metrics).mono (replaceRollupsUpTo_alike n q (replaceRollupsUpTo_follows n))
    fun _ alike => alike.follows

theorem replaceRollups_alike (reach : Reach) {q q' : Query} {metrics : List Metric}
    (replaces : c.replaceRollups q = .ok (q', metrics)) : q.Alike (rollupChange c.layer reach (· ∈ metrics)) reach
      (Query.Follows (rollupChange c.layer reach (· ∈ metrics)) reach) q' := by
  obtain ⟨n, height⟩ := Query.exists_succ (Nat.le_refl q.height)
  unfold replaceRollups at replaces
  rw [height, Nat.succ_add] at replaces
  exact Judgement.recording_run (p := fun final q' => q.Alike (rollupChange c.layer reach final) reach
      (Query.Follows (rollupChange c.layer reach final) reach) q')
    (fun final => replaceRollupsUpTo_alike _ q (replaceRollupsUpTo_follows _)) replaces

end Context

end SemanticLayer
