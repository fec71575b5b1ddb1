import Mathlib.Data.Option.Basic
import SemanticLayer.Proofs.Rollups
import SemanticLayer.Proofs.TableQuery

/-! # The text of roll-ups

The SQL of a roll-up is read as a SELECT from the base object, if the text of every column is one item
without a query and none of them runs into the next one.
-/

namespace SemanticLayer

open List

namespace Sql

namespace Grammar

section Steps

variable {α β : Type} {ts ts' : List Token} {p : Parser α} {f : α → Parser β} {a : α} {r : β × List Token} {t : Token}
  {word : String}

theorem bind_of (first : p ts = some (a, ts')) : (p >>= f) ts = f a ts' := by
  change (p ts).bind (fun r => f r.1 r.2) = _
  rw [first]
  rfl

theorem of_bind (read : (p >>= f) ts = some r) : ∃ a ts', p ts = some (a, ts') ∧ f a ts' = some r := by
  obtain ⟨⟨a, ts'⟩, first, rest⟩ := Option.bind_eq_some_iff.mp read
  exact ⟨a, ts', first, rest⟩

theorem keyword_of_word (here : t.isWord word = true) : keyword word (t :: ts) = some (true, ts) := by
  refine (bind_of (a := t :: ts) rfl).trans ?_
  simp only [startsWith, here]
  rfl

theorem keyword_of_other (other : t.isWord word = false) : keyword word (t :: ts) = some (false, t :: ts) := by
  refine (bind_of (a := t :: ts) rfl).trans ?_
  simp only [startsWith, other]
  rfl

end Steps

/-- What `p` reads of these tokens is all of them, and good, if it reads anything. -/
def ReadsTo {α : Type} (p : Parser α) (good : α → Prop) (own rest : List Token) : Prop :=
  ∀ r, p (own ++ rest) = some r → good r.1 ∧ r.2 = rest

/-- What a list reads, if each of its parts is read up to the next comma or the end. -/
theorem listUpTo_intercalate {α : Type} {p : Parser α} {good : α → Prop} {tail : List Token}
    (ends : symbol "," tail = some (false, tail)) {owns : List (List Token)} (some? : owns ≠ [])
    (each : ∀ own ∈ owns, ReadsTo p good own tail ∧ ∀ ts, ReadsTo p good own (.symbol "," :: ts))
    {n : Nat} {r : List α × List Token} (read : listUpTo p n ([.symbol ","].intercalate owns ++ tail) = some r) :
    (∀ a ∈ r.1, good a) ∧ r.2 = tail := by
  induction owns generalizing n r with
  | nil => exact absurd rfl some?
  | cons own owns ih =>
    cases n with
    | zero => cases read
    | succ n =>
      obtain ⟨a, ts, first, more⟩ := of_bind read
      cases owns with
      | nil =>
        rw [intercalate_singleton] at first
        obtain ⟨holds, rfl⟩ := (each own mem_cons_self).1 _ first
        rw [bind_of ends] at more
        cases more
        exact ⟨by simpa using holds, rfl⟩
      | cons own' owns =>
        rw [intercalate_cons_cons, append_assoc, append_assoc] at first
        obtain ⟨holds, rfl⟩ := (each own mem_cons_self).2 _ _ first
        obtain ⟨others, ts, listed, last⟩ := of_bind (p := listUpTo p n) (f := fun others => pure (a :: others)) more
        obtain ⟨hold, rfl⟩ := ih (cons_ne_nil _ _) (fun own member => each own (mem_cons_of_mem _ member)) listed
        cases last
        exact ⟨forall_mem_cons.mpr ⟨holds, hold⟩, rfl⟩

/-- What the SELECT of a statement may nest: the statement is one level, and its query another. -/
abbrev nested : Grammar := grammar .generic (maxDepth - 2)

variable {g : Grammar} {base : String} {quote : Option Char} {more : List Token}

/-- A name before GROUP is read as a table, if it is read at all. -/
theorem relation_of_word {n : Nat} (other : Token.isWord (.word base quote) "LATERAL" = false)
    {r : Relation Query × List Token}
    (read : relationUpTo .generic g (n + 1) (.word base quote :: .word "GROUP" none :: more) = some r) :
    r = (.table [⟨base, quote⟩] none false none .empty, .word "GROUP" none :: more) := by
  have noRows : ¬(Dialect.generic == .generic &&
      startsWith ["VALUES"] (.word base quote :: .word "GROUP" none :: more) &&
      (Token.word base quote :: .word "GROUP" none :: more)[1]? == some (.symbol "(")) = true := by
    have word : (some (Token.word "GROUP" none) == some (.symbol "(")) = false := by decide
    exact fun rows => Bool.false_ne_true (word.symm.trans (Bool.and_eq_true_iff.mp rows).2)
  rw [relationUpTo, bind_of (keyword_of_other other), if_neg Bool.false_ne_true] at read
  cases table : Token.isWord (.word base quote) "TABLE" with
  | true =>
    rw [bind_of (keyword_of_word table)] at read
    cases read
  | false =>
    rw [bind_of (keyword_of_other table), if_neg Bool.false_ne_true, bind_of (a := false) rfl,
      if_neg Bool.false_ne_true, bind_of rfl, if_neg noRows] at read
    change (keyword "UNNEST" >>= _) _ = _ at read
    cases array : Token.isWord (.word base quote) "UNNEST" with
    | true =>
      rw [bind_of (keyword_of_word array)] at read
      cases read
    | false =>
      rw [bind_of (keyword_of_other array)] at read
      cases read
      rfl

theorem source_of_word (other : Token.isWord (.word base quote) "LATERAL" = false)
    {r : List (FromItem Query) × List Token}
    (read : list (fromItem .generic g) (.word base quote :: .word "GROUP" none :: more) = some r) :
    r = ([⟨.table [⟨base, quote⟩] none false none .empty, []⟩], .word "GROUP" none :: more) := by
  rw [list, bind_of rfl, listUpTo] at read
  obtain ⟨item, ts, first, rest⟩ := of_bind read
  rw [fromItem, bind_of rfl, joined] at first
  obtain ⟨relation, ts', first, joins⟩ := of_bind first
  cases relation_of_word other first
  cases joins
  cases rest
  rfl

def positions (ks : List String) : List Token := [.symbol ","].intercalate (ks.map fun k => [.number k false])

theorem grouping_positions {ks : List String} (some? : ks ≠ []) {r : GroupBy Query × List Token}
    (read : grouping .generic nested (positions ks) = some r) : r.1.queries = [] ∧ r.2 = [] := by
  obtain ⟨k, ks, rfl⟩ := exists_cons_of_ne_nil some?
  have start : keyword "ALL" (positions (k :: ks)) = some (false, positions (k :: ks)) := by cases ks <;> rfl
  rw [grouping, bind_of start, if_neg Bool.false_ne_true] at read
  obtain ⟨es, ts, listed, last⟩ := of_bind read
  rw [list, bind_of rfl, ← append_nil (positions (k :: ks))] at listed
  have each (k : String) (rest : List Token) (fits : rest = [] ∨ ∃ ts, rest = .symbol "," :: ts) :
      ReadsTo (groupItem .generic nested) (fun e => e.queries = []) [.number k false] rest := by
    intro r read
    rcases fits with rfl | ⟨ts, rfl⟩ <;> cases read <;> exact ⟨rfl, rfl⟩
  obtain ⟨plain, rfl⟩ := listUpTo_intercalate rfl (by simp) (fun own member => by
    obtain ⟨k, _, rfl⟩ := mem_map.mp member
    exact ⟨each k _ (.inl rfl), fun ts => each k _ (.inr ⟨ts, rfl⟩)⟩) listed
  cases last
  exact ⟨flatMap_eq_nil_iff.mpr plain, rfl⟩

/-- A SELECT from a name, grouped by positions, whose items are read as items without queries. -/
theorem select_of_parts {ts : List Token} {ks : List String} (some? : ks ≠ [])
    (listed : ∀ r, list (selectItem .generic nested) (.word "DATE_TRUNC" none :: ts) = some r →
      (∀ item ∈ r.1, item.queries = []) ∧ r.2 =
        .word "FROM" none :: .word base quote :: .word "GROUP" none :: .word "BY" none :: positions ks)
    (named : Token.isWord (.word base quote) "LATERAL" = false) {r : Select Query × List Token}
    (read : select .generic nested (.word "DATE_TRUNC" none :: ts) = some r) :
    r.1.ReadsOnly ⟨base, quote⟩ ∧ r.2 = [] := by
  rw [select, bind_of (a := []) rfl, bind_of (a := []) rfl] at read
  obtain ⟨items, ts', first, rest⟩ := of_bind read
  obtain ⟨plain, rfl⟩ := listed _ first
  rw [bind_of (a := none) rfl, bind_of (a := true) rfl, if_pos rfl] at rest
  obtain ⟨source, ts', first, rest⟩ := of_bind rest
  cases source_of_word named first
  dsimp only at rest
  have opened : keywords ["GROUP", "BY"] (.word "GROUP" none :: .word "BY" none :: positions ks) =
    some (true, positions ks) := rfl
  rw [bind_of (a := []) rfl, bind_of (a := false) rfl, if_neg Bool.false_ne_true, bind_of (a := []) rfl,
    bind_of (a := none) rfl, bind_of opened, if_pos rfl] at rest
  obtain ⟨groupBy, ts', first, rest⟩ := of_bind rest
  obtain ⟨grouped, rfl⟩ := grouping_positions some? first
  cases rest
  refine ⟨⟨?_, rfl⟩, rfl⟩
  have items : items.flatMap SelectItem.queries = [] := flatMap_eq_nil_iff.mpr plain
  rw [Select.queries, items, grouped]
  rfl

section Statements

variable {t : Token} {ts : List Token} {holds : Select Query → Prop}
  (only : ∀ r, select .generic nested (t :: ts) = some r → holds r.1 ∧ r.2 = [])

include only

theorem query_of_select {r : Query × List Token}
    (read : queryAbove .generic nested (.word "SELECT" none :: t :: ts) = some r) :
    ∃ s, holds s ∧ r = ({ body := .select s }, []) := by
  rw [queryAbove, bind_of (a := false) rfl, if_neg Bool.false_ne_true, bind_of (a := (false, [])) rfl] at read
  dsimp only at read
  rw [bind_of (a := false) rfl, if_neg Bool.false_ne_true, bind_of (a := false) rfl, if_neg Bool.false_ne_true,
    bind_of rfl] at read
  obtain ⟨body, ts₁, first, rest⟩ := of_bind read
  rw [bodyUpTo] at first
  obtain ⟨body', ts₂, first, more⟩ := of_bind first
  rw [bodyStart, bind_of (a := true) rfl, if_pos rfl] at first
  obtain ⟨s, ts₃, first, same⟩ := of_bind first
  obtain ⟨fits, rfl⟩ := only _ first
  cases same
  cases more
  cases rest
  exact ⟨s, fits, rfl⟩

theorem statements_of_select {r : List Statement × List Token}
    (read : statements .generic (.word "SELECT" none :: t :: ts) = some r) :
    ∃ s, holds s ∧ r = ([.query { body := .select s }], []) := by
  rw [statements, bind_of rfl, statementsUpTo, bind_of (a := false) rfl] at read
  dsimp only at read
  rw [bind_of (a := some _) rfl] at read
  dsimp only at read
  rw [if_neg (by decide)] at read
  obtain ⟨statement, ts₁, first, rest⟩ := of_bind read
  change Grammar.statement .generic (49 + 1) _ = _ at first
  rw [Grammar.statement, bind_of (a := some _) rfl] at first
  obtain ⟨q, ts₂, first, same⟩ := of_bind (p := queryAbove .generic nested) first
  obtain ⟨s, fits, ⟨⟩⟩ := query_of_select only first
  cases same
  cases rest
  exact ⟨s, fits, rfl⟩

end Statements

/-- Tokens that are read as one select item without a query, if at all, in front of a comma or FROM. -/
def PlainItem (own : List Token) : Prop :=
  ∀ t ∈ [.symbol ",", .word "FROM" none], ∀ ts,
    ReadsTo (selectItem .generic nested) (fun item => item.queries = []) own (t :: ts)

end Grammar

end Sql

open Sql Grammar

theorem readQuery_of_select {sql : String} {t : Token} {ts : List Token} {q : Query} {holds : Select Query → Prop}
    (scanned : Token.ofText .generic sql = some (.word "SELECT" none :: t :: ts))
    (only : ∀ r, select .generic nested (t :: ts) = some r → holds r.1 ∧ r.2 = [])
    (read : readQuery sql = .ok q) : ∃ s, holds s ∧ q = { body := .select s } := by
  unfold readQuery Statement.parseAll? at read
  rw [scanned] at read
  cases parsed : statements .generic (.word "SELECT" none :: t :: ts) with
  | none => simp [parsed] at read
  | some r =>
    obtain ⟨s, fits, ⟨⟩⟩ := statements_of_select only parsed
    simp [parsed] at read
    exact ⟨s, fits, read.symm⟩

theorem not_lateral_ofName {name : String} : Token.isWord (.word name (Ident.ofName name).quote) "LATERAL" = false := by
  unfold Ident.ofName
  split
  · rename_i bare
    have other : Text.upperAscii name ≠ "LATERAL" := by
      intro same
      unfold isBare at bare
      split at bare
      · cases bare
      · rw [same] at bare
        simp [reservedForTables] at bare
    simpa [Token.isWord] using other
  · rfl

namespace Rollup

/-- The tokens of the period that a roll-up selects. -/
def periodTokens (r : Rollup) : List Token :=
  [.word "DATE_TRUNC" none, .symbol "(", .quoted .plain r.unit.truncName, .symbol ",",
    .word r.grain.refColumn (Ident.ofName r.grain.refColumn).quote, .symbol ")", .word "AS" none,
    .word r.grain.name (Ident.ofName r.grain.name).quote]

/-- The tokens of the items of a roll-up, each read from its own text. -/
def itemTokens (r : Rollup) : List (List Token) :=
  r.periodTokens :: (r.metric.dimension.filter (·.name != r.grain.name) ++ r.metric.measure).map fun c =>
    (Token.ofText .generic (aggregateItem c)).getD []

/-- What stands behind the items of a roll-up. -/
def sourceTokens (r : Rollup) : List Token :=
  .word "FROM" none :: .word r.metric.baseObject (Ident.ofName r.metric.baseObject).quote :: .word "GROUP" none ::
    .word "BY" none :: positions
      ((range ((r.metric.dimension.filter (·.name != r.grain.name)).length + 1)).map fun i => toString (i + 1))

/-- The text of each part of a roll-up is scanned by itself: none runs into the next one. -/
def ScannedByParts (r : Rollup) : Prop :=
  Token.ofText .generic r.sql = some (.word "SELECT" none :: ([.symbol ","].intercalate r.itemTokens ++ r.sourceTokens))

end Rollup

/-- A metric whose expressions, and the periods of its time grains, are each one item without a query,
    and whose roll-ups are scanned part by part. -/
structure Metric.Plain (m : Metric) : Prop where
  columns : ∀ c ∈ m.dimension ++ m.measure, ∃ own, Token.ofText .generic (aggregateItem c) = some own ∧
    PlainItem own
  periods : ∀ r : Rollup, r.metric = m → r.Allowed → PlainItem r.periodTokens
  scanned : ∀ r : Rollup, r.metric = m → r.Allowed → r.ScannedByParts

namespace Rollup

variable {r : Rollup} (plain : r.metric.Plain) (allowed : r.Allowed)

include plain allowed

theorem plainItem_of_mem {own : List Token} (member : own ∈ r.itemTokens) : PlainItem own := by
  rcases mem_cons.mp member with rfl | member
  · exact plain.periods r rfl allowed
  · obtain ⟨c, column, rfl⟩ := mem_map.mp member
    obtain ⟨own, scanned, fits⟩ := plain.columns c ((filter_sublist.append_right _).subset column)
    rwa [scanned]

/-- A roll-up of a plain metric names its base object only. -/
theorem mentions_base {x : Query} (read : readQuery r.sql = .ok x) {reach : Reach} {mention : Mention}
    (mentions : x.Mentions reach mention) : ∃ part, mention = .table [part] ∧ part.value = r.metric.baseObject := by
  have listed : ∀ r', list (selectItem .generic nested)
      ([.symbol ","].intercalate r.itemTokens ++ r.sourceTokens) = some r' →
      (∀ item ∈ r'.1, item.queries = []) ∧ r'.2 = r.sourceTokens := by
    intro r' listed
    rw [list, bind_of rfl] at listed
    refine listUpTo_intercalate rfl (cons_ne_nil _ _) (fun own member => ?_) listed
    have item := plainItem_of_mem plain allowed member
    exact ⟨item _ (by simp) _, item _ (by simp)⟩
  have scanned : Token.ofText .generic r.sql = _ := plain.scanned r rfl allowed
  obtain ⟨ts, starts⟩ : ∃ ts, [.symbol ","].intercalate r.itemTokens ++ r.sourceTokens =
      .word "DATE_TRUNC" none :: ts := by
    unfold itemTokens
    cases (r.metric.dimension.filter (·.name != r.grain.name) ++ r.metric.measure).map _ <;> exact ⟨_, rfl⟩
  rw [starts] at scanned listed
  obtain ⟨s, only, rfl⟩ := readQuery_of_select scanned
    (fun _ => select_of_parts (by simp) listed not_lateral_ofName) read
  exact ⟨_, only.mention mentions, rfl⟩

end Rollup

end SemanticLayer
