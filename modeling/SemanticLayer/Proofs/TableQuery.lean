import SemanticLayer.Proofs.Reads
import SemanticLayer.Compile.Basic

/-! # Queries that read one table

The text that reads a cache table is read as the query one expects, as long as the name of the table
holds no quote. Such a query reads that table only.
-/

namespace SemanticLayer.Sql

open List

namespace Token

theorem scanQuoted_plain {close : Char} : ∀ {cs : List Char}, close ∉ cs →
    scanQuoted close false (cs ++ [close]) = some (cs, [])
  | [], _ => by simp [scanQuoted]
  | c :: cs, free => by
    simp only [mem_cons, not_or] at free
    have other : c ≠ close := fun same => free.1 same.symm
    rw [cons_append, scanQuoted.eq_def]
    simp [other, scanQuoted_plain free.2]

theorem scanAll_cons {d : Dialect} {n : Nat} {c : Char} {cs rest : List Char} {t : Option Token}
    {ts : List Token} (first : scan d (c :: cs) = some (t, rest))
    (others : scanAll d n rest = some ts) : scanAll d (n + 1) (c :: cs) = some (t.toList ++ ts) := by
  rw [scanAll]
  · rw [first]
    simp only [Option.bind_eq_bind, Option.bind_some, others]
    cases t <;> rfl
  · simp

theorem scanSymbol_plain (d : Dialect) {c : Char} (plain : c ∈ ['*', ',', ')']) (cs : List Char) :
    scanSymbol d c (' ' :: cs) = (.symbol (String.singleton c), ' ' :: cs) := by
  have more : span d.continuesOperator (' ' :: cs) = ([], ' ' :: cs) := by cases d <;> rfl
  have alone : (longSymbols.find? fun s => s.toList.isPrefixOf (c :: ' ' :: cs)) = none ∧
      "//".toList.isPrefixOf (c :: ' ' :: cs) = false ∧ (String.singleton c == "!=") = false := by
    simp only [mem_cons, not_mem_nil, or_false] at plain
    rcases plain with rfl | rfl | rfl <;> exact ⟨rfl, rfl, rfl⟩
  unfold scanSymbol
  simp only [alone, Bool.and_false, Bool.false_eq_true, if_false, String.length_singleton,
    drop_succ_cons, drop_zero, more, isEmpty_nil, Bool.not_true, Bool.false_and]

theorem scan_plain (d : Dialect) {c : Char} (plain : c ∈ ['*', ',', ')']) (cs : List Char) :
    scan d (c :: ' ' :: cs) = some (some (.symbol (String.singleton c)), ' ' :: cs) := by
  have symbol := scanSymbol_plain d plain cs
  simp only [mem_cons, not_mem_nil, or_false] at plain
  have other : scanPrefixed d c (' ' :: cs) = none ∧ d.startsName c = false ∧ d.closingQuote c = none ∧
      Text.isSpace c = false := by
    rcases plain with rfl | rfl | rfl <;> exact ⟨rfl, by cases d <;> decide, by cases d <;> rfl, by decide⟩
  rw [scan.eq_def]
  simp only [other, symbol]
  rcases plain with rfl | rfl | rfl <;> simp

theorem scan_quotedWord (d : Dialect) {cs : List Char} (free : '"' ∉ cs) :
    scan d ('"' :: (cs ++ ['"'])) = some (some (.word (String.ofList cs) (some '"')), []) := by
  have opened : scan d ('"' :: (cs ++ ['"'])) = (scanQuoted '"' false (cs ++ ['"'])).map fun found =>
      (some (.word (String.ofList found.1) (some '"')), found.2) := by cases d <;> rfl
  rw [opened, scanQuoted_plain free]
  rfl

/-- The tokens of a text that reads one table. -/
theorem ofText_selectAll (d : Dialect) {table : String} (free : '"' ∉ table.toList) :
    ofText d (String.ofList ("SELECT * FROM ".toList ++ '"' :: (table.toList ++ ['"']))) =
      some [.word "SELECT" none, .symbol "*", .word "FROM" none, .word table (some '"')] := by
  have word := scan_quotedWord d free
  rw [String.ofList_toList] at word
  have space : ∀ cs : List Char, scan d (' ' :: cs) = some (none, cs) := fun _ => rfl
  have select : ∀ cs : List Char, scan d ("SELECT".toList ++ ' ' :: cs) =
      some (some (.word "SELECT" none), ' ' :: cs) := fun _ => by cases d <;> rfl
  have source : ∀ cs : List Char, scan d ("FROM".toList ++ ' ' :: cs) =
      some (some (.word "FROM" none), ' ' :: cs) := fun _ => by cases d <;> rfl
  have length : ("SELECT * FROM ".toList ++ '"' :: (table.toList ++ ['"'])).length = table.toList.length + 9 + 7 := by
    simp
  have last : scanAll d (table.toList.length + 9) [] = some [] := by rw [scanAll]
  unfold ofText
  rw [String.toList_ofList, length]
  exact scanAll_cons (select _) (scanAll_cons (space _) (scanAll_cons (scan_plain d (by decide) _)
    (scanAll_cons (space _) (scanAll_cons (source _) (scanAll_cons (space _) (scanAll_cons word last))))))

end Token

/-- A SELECT from one table that holds no query. -/
structure Select.ReadsOnly (name : Ident) (s : Select Query) : Prop where
  queries : s.queries = []
  source : s.source = [⟨.table [name] none false none .empty, []⟩]

theorem Select.ReadsOnly.mention {name : Ident} {s : Select Query} (only : s.ReadsOnly name) {reach : Reach}
    {mention : Mention} (mentions : Query.Mentions reach { body := .select s } mention) : mention = .table [name] := by
  rcases Query.mentions_iff.mp mentions with here | ⟨x, member, _⟩ | ⟨_, member, _⟩
  · rw [Body.mentions, only.source] at here
    exact mem_singleton.mp here
  · have nested := Query.queries_of_inner member
    rw [Query.queries, Body.queries, only.queries] at nested
    cases nested
  · cases member

def Query.ofTable (table : String) : Query where
  body := .select
    { items := [.wildcard .empty]
      source := [⟨.table [{ value := table, quote := some '"' }] none false none .empty, []⟩]
      -- the place of a WINDOW clause behind QUALIFY, which is empty
      trailer := .form [.hole 0] [.empty] }

example : (Query.ofTable "Album_1").render = "SELECT * FROM \"Album_1\"" := by decide +kernel

namespace Query

theorem ofTable_mentions {reach : Reach} {table : String} {mention : Mention}
    (mentions : (ofTable table).Mentions reach mention) : mention = .table [{ value := table, quote := some '"' }] :=
  Select.ReadsOnly.mention ⟨rfl, rfl⟩ mentions

theorem ofTable_relations (table : String) : (ofTable table).relations = [table] := by
  obtain ⟨n, height⟩ := exists_succ (Nat.le_refl (ofTable table).height)
  have none : (ofTable table).queries = [] := rfl
  rw [relations, height, relationsAt, none]
  rfl

end Query

end SemanticLayer.Sql

namespace SemanticLayer

open Sql

def selectAll (table : String) : String := "SELECT * FROM " ++ Ident.render { value := table, quote := some '"' }

theorem selectAll_eq {table : String} (free : '"' ∉ table.toList) :
    selectAll table = String.ofList ("SELECT * FROM ".toList ++ '"' :: (table.toList ++ ['"'])) := by
  have unescaped : ∀ (cs : List Char) (previous : Char), '"' ∉ cs → Text.escapeFrom '"' previous cs = cs := by
    intro cs
    induction cs with
    | nil => exact fun _ _ => rfl
    | cons c cs ih =>
      intro previous free
      simp only [List.mem_cons, not_or] at free
      rw [Text.escapeFrom.eq_def]
      simp [Ne.symm free.1, ih c free.2]
  change "SELECT * FROM " ++ Text.quoted '"' table = _
  rw [Text.quoted, unescaped _ _ free, String.ofList_append, String.ofList_toList]

/-- A table whose name holds no quote is read by the query that is meant. -/
theorem Context.readTable_eq {table : String} (free : '"' ∉ table.toList) :
    Context.readTable table = .ok (.ofTable table) := by
  change readQuery (selectAll table) = _
  unfold readQuery Statement.parseAll?
  rw [selectAll_eq free, Token.ofText_selectAll .generic free]
  rfl

theorem Backend.renameFunctions_ofTable (b : Backend) (table : String) :
    b.renameFunctions (.ofTable table) = .ofTable table := by
  unfold Backend.renameFunctions Query.edit
  cases (Query.ofTable table).height <;> rfl

end SemanticLayer
