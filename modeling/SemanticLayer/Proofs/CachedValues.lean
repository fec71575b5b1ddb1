import SemanticLayer.Proofs.ColumnTypes
import SemanticLayer.Proofs.LocalTables
import SemanticLayer.Proofs.TableQuery
import SemanticLayer.Proofs.Unchanged
import SemanticLayer.Store.Select

/-! # Values in local tables

What is read from a local table, compared with what the source gave.
-/

namespace SemanticLayer

open Sql List

section Reading

variable {s : Store} {name : String} {t : Table}

theorem Store.prepare_selectAll (free : '"' ∉ name.toList) :
    Store.prepare (selectAll name) = .ok (some (.ofTable name, 0)) := by
  unfold prepare firstStatement
  rw [selectAll_eq free, Token.ofText_selectAll .sqlite free]
  rfl

/-- The value of an output column for a row; counts are not asked for here. -/
def Output.cell (row : List Cell) : Output → Except StoreError Cell
  | .value c => c.eval row
  | .count _ => .ok .null

theorem mapM_cells (columns : List RowColumn) (front back : List Cell) (same : back.length = columns.length) :
    (columns.mapIdx fun i c => Output.value ⟨c.info, c.affinity, fun row => .ok (row.getD (front.length + i) .null)⟩).mapM
      (Output.cell (front ++ back)) = .ok back := by
  induction columns generalizing front back with
  | nil =>
    rw [length_eq_zero_iff.mp same]
    rfl
  | cons c columns ih =>
    obtain ⟨cell, back, rfl⟩ := exists_cons_of_length_eq_add_one same
    have others := ih (front ++ [cell]) back (by simpa using same)
    simp only [append_assoc, singleton_append, length_append, length_singleton, Nat.add_assoc, Nat.add_comm 1] at others
    rw [mapIdx_cons, mapM_cons, others]
    simp [Output.cell, bind, Except.bind, pure, Except.pure]

theorem outputRows_all {rows : List (List Cell)} {columns : List RowColumn}
    (same : ∀ row ∈ rows, row.length = columns.length) : outputRows (allOutputs columns) rows = .ok rows := by
  have plain : (allOutputs columns).any Output.isCount = false := by
    rw [any_eq_false]
    intro o member
    obtain ⟨i, _, rfl⟩ := mem_mapIdx.mp member
    simp [Output.isCount]
  have cells : ∀ row ∈ rows, ((allOutputs columns).mapM fun
      | .value c => c.eval row
      | .count _ => pure (.int rows.length)) = Except.ok row := by
    intro row member
    have own := mapM_cells columns [] row (same row member)
    simp only [length_nil, Nat.zero_add, nil_append] at own
    rw [← own]
    refine mapM_congr fun o member => ?_
    obtain ⟨i, _, rfl⟩ := mem_mapIdx.mp member
    rfl
  unfold outputRows
  rw [if_neg (by simp [plain])]
  exact mapM_eq_pure cells

theorem allOutputs_info (columns : List RowColumn) : (allOutputs columns).map Output.info = columns.map (·.info) := by
  refine ext_getElem (by simp [allOutputs]) fun i _ _ => ?_
  simp [allOutputs, Output.info]

theorem Store.query_selectAll (free : '"' ∉ name.toList) (found : s.table? name = some t)
    (same : ∀ row ∈ t.rows, row.length = t.columns.length) :
    s.query (selectAll name) [] = .ok ⟨t.columns, t.rows.map (·.map Cell.toValue)⟩ := by
  have whole : outputRows (allOutputs (t.rowset.rename name).columns) t.rows = .ok t.rows :=
    outputRows_all (by simpa [Table.rowset, Rowset.rename] using same)
  have source : (t.rowset.rename name).rows = .ok t.rows := rfl
  have rows : queryRows s [] (Query.ofTable name).height [] (Query.ofTable name) =
      .ok ⟨(allOutputs (t.rowset.rename name).columns).map fun o => ⟨"", o.info, o.affinity⟩, .ok t.rows⟩ := by
    obtain ⟨n, height⟩ := Query.exists_succ (Nat.le_refl (Query.ofTable name).height)
    rw [height]
    simp only [queryRows, Query.ofTable, foldl_nil, selectRows, sourceRows, relationRows, find?_nil, found, limitOf]
    refine (if_neg (by exact Bool.false_ne_true)).trans ?_
    simp only [Option.map_none, Option.getD_none, mapM_cons, mapM_nil, resolveItem, bind, Except.bind,
      pure, Except.pure, flatten_cons, flatten_nil, append_nil, ite_self, source,
      filterRows, sortRows, isEmpty_nil, if_true, whole]
  have infos : ((allOutputs (t.rowset.rename name).columns).map fun o => o.info) = t.columns := by
    rw [allOutputs_info]
    simp [Table.rowset, Rowset.rename, Function.comp_def]
  unfold query
  rw [prepare_selectAll free]
  simp only [bind, Except.bind, length_nil, bne_self_eq_false, Bool.false_eq_true, if_false, map_nil, rows,
    map_map, Function.comp_def, infos]
  rfl

end Reading

section Conversions

/-- What a column of a SQLite source holds: a cell, or bytes that are shown as some text. -/
inductive SourceCell where
  | cell (c : Cell)
  | blob (shown : String)
  deriving Repr, DecidableEq

namespace SourceCell

def decode : SourceCell → Value
  | .cell c => c.toValue
  | .blob shown => .text shown

/-- Whether a column of some affinity holds a cell as it is. Bytes are never converted. -/
def HeldBy (affinity : Affinity) : SourceCell → Prop
  | .cell c => c ≠ .real .nan ∧ affinity.keep c = c
  | .blob _ => True

/-- Whether a local column for a source column of some type keeps something else: numbers are text where the type
is one of PostgreSQL's that are declared as text, and bytes that write a number are the number where numbers are
preferred. -/
def Lost (typeName : String) : SourceCell → Prop
  | .cell (.int _) | .cell (.real _) => Text.lower (Text.trim typeName) ∈ Affinity.textTypes
  | .cell .null | .cell (.text _) => False
  | .blob shown => (Affinity.ofTypeName typeName).isNumeric = true ∧ (Cell.numberOf? shown).isSome = true

/-- The value that a local column for a source column of some type gives back. -/
def cached (typeName : String) (v : SourceCell) : Value :=
  ((Affinity.ofTypeName typeName).keep v.decode.toCell).toValue

end SourceCell

theorem Cell.toCell_toValue {c : Cell} (number : c ≠ .real .nan) : c.toValue.toCell = c := by
  cases c with
  | real x =>
    cases x with
    | nan => exact absurd rfl number
    | finite | infinite => rfl
  | null | int | text => rfl

theorem Cell.toValue_injective {c d : Cell} (same : c.toValue = d.toValue) : c = d := by
  cases c <;> cases d <;> cases same <;> rfl

theorem Cell.numberOf?_ne_text {s t : String} : numberOf? s ≠ some (.text t) := by
  unfold numberOf?
  dsimp only
  split
  · split <;> split <;> simp
  · split <;> simp

theorem Cell.wholeNumber_ne_text {x : Number.Double} {s : String} : wholeNumber x ≠ .text s := by
  unfold wholeNumber
  split
  · split <;> simp
  · simp

theorem Cell.preferInt_text_iff {s : String} : preferInt (.text s) = .text s ↔ numberOf? s = none := by
  unfold preferInt
  dsimp only
  cases number : numberOf? s with
  | none => simp
  | some c =>
    cases c with
    | null => simp
    | int i => simp
    | real x => simp [wholeNumber_ne_text]
    | text t => exact absurd number numberOf?_ne_text

theorem Cell.asReal_eq_text_iff {c : Cell} {s : String} : c.asReal = .text s ↔ c = .text s := by
  cases c <;> simp [asReal]

/-- A text stays as it is unless it writes a number and numbers are preferred. -/
theorem Affinity.keep_text_iff (a : Affinity) (s : String) :
    a.keep (.text s) = .text s ↔ ¬ (a.isNumeric = true ∧ (Cell.numberOf? s).isSome = true) := by
  cases a with
  | integer | numeric => simp [keep, isNumeric, Cell.preferInt_text_iff]
  | real => simp [keep, isNumeric, Cell.asReal_eq_text_iff, Cell.preferInt_text_iff]
  | text | blob | untyped => simp [keep, isNumeric, Cell.asText]

theorem Affinity.ofDeclared_render (a : Affinity) : ofDeclared a.render = a := by
  cases a <;> decide +kernel

namespace SourceCell

variable {typeName : String} {v : SourceCell}

/-- A cell that a column holds comes back from the local column unless it is lost. -/
theorem cached_eq_iff (held : v.HeldBy (.ofDeclared typeName)) : v.cached typeName = v.decode ↔ ¬ v.Lost typeName := by
  cases v with
  | blob shown =>
    rw [Lost, ← Affinity.keep_text_iff]
    exact ⟨fun same => Cell.toValue_injective same, congrArg Cell.toValue⟩
  | cell c =>
    obtain ⟨number, kept⟩ := held
    rw [cached, decode, Cell.toCell_toValue number]
    rcases Affinity.ofTypeName_cases typeName with ⟨text, _, listed⟩ | ⟨other, same | untyped | ⟨near, numeric⟩⟩
    · rw [text]
      cases c <;> simp [Affinity.keep, Cell.asText, Cell.toValue, Lost, listed]
    all_goals
      have safe : ¬ (cell c).Lost typeName := by cases c <;> simp [Lost, other]
      refine iff_of_true (congrArg Cell.toValue ?_) safe
    · rw [same, kept]
    · rw [untyped]
      rfl
    · rw [numeric] at kept
      rcases near with integer | blob
      · rw [integer]
        exact kept
      · rw [blob]
        rfl

end SourceCell

end Conversions

section Tables

def ColumnInfo.declared (c : ColumnInfo) : ColumnInfo := { c with typeName := (Affinity.ofTypeName c.typeName).render }

variable {s : Store} {name : String} {columns : List ColumnInfo}

theorem Store.keepRow_declared {row : List Value} (same : row.length = columns.length) :
    keepRow (columns.map ColumnInfo.declared) row =
      .ok (zipWith (fun c v => (Affinity.ofTypeName c.typeName).keep v.toCell) columns row) := by
  rw [keepRow, if_pos (by simpa using same), zipWith_map_left]
  simp only [ColumnInfo.declared, Affinity.ofDeclared_render]

theorem Store.create_eq {rows : List (List Value)} (free : s.table? name = none)
    (unreserved : (Text.lowerAscii name).startsWith "sqlite_" = false) (nonempty : columns ≠ [])
    (distinct : repeatedName? (columns.map (·.name)) = none) (same : ∀ row ∈ rows, row.length = columns.length) :
    s.create name columns rows = .ok ⟨s.tables ++ [{
      name := name
      columns := columns.map ColumnInfo.declared
      rows := rows.map (zipWith (fun c v => (Affinity.ofTypeName c.typeName).keep v.toCell) columns) }]⟩ := by
  have empty : s.createEmpty name (columns.map ColumnInfo.declared) =
      .ok ⟨s.tables ++ [{ name := name, columns := columns.map ColumnInfo.declared }]⟩ := by
    simp [createEmpty, unreserved, free, nonempty, ColumnInfo.declared, Function.comp_def, distinct, pure, Except.pure]
  have cells : rows.mapM (keepRow (columns.map ColumnInfo.declared)) =
      .ok (rows.map (zipWith (fun c v => (Affinity.ofTypeName c.typeName).keep v.toCell) columns)) := by
    rw [mapM_congr fun row member => keepRow_declared (same row member)]
    exact mapM_pure
  change (do
    let s ← s.createEmpty name (columns.map ColumnInfo.declared)
    let cells ← rows.mapM (keepRow (columns.map ColumnInfo.declared))
    return { s with tables := fill cells s.tables }) = _
  rw [empty, cells]
  exact congrArg (fun tables => Except.ok (Store.mk tables)) (fill_append _ _ _)

/-- Rows of a source that a store can take in under a name. -/
structure Store.Takes (s : Store) (name : String) (columns : List ColumnInfo) (rows : List (List SourceCell)) : Prop where
  free : s.table? name = none
  unreserved : (Text.lowerAscii name).startsWith "sqlite_" = false
  unquoted : '"' ∉ name.toList
  nonempty : columns ≠ []
  distinct : Store.repeatedName? (columns.map (·.name)) = none
  held : ∀ row ∈ rows, Forall₂ (fun c v => v.HeldBy (.ofDeclared c.typeName)) columns row

theorem Store.query_create {rows : List (List SourceCell)} (takes : s.Takes name columns rows) :
    ∃ s', s.create name columns (rows.map (·.map SourceCell.decode)) = .ok s' ∧
      s'.query (selectAll name) [] = .ok ⟨columns.map ColumnInfo.declared,
        rows.map (List.zipWith (fun c v => v.cached c.typeName) columns)⟩ := by
  have lengths : ∀ row ∈ rows, row.length = columns.length := fun row member =>
    (takes.held row member).length_eq.symm
  have decoded : ∀ row ∈ rows.map (·.map SourceCell.decode), row.length = columns.length := by simpa using lengths
  refine ⟨_, Store.create_eq takes.free takes.unreserved takes.nonempty takes.distinct decoded, ?_⟩
  have found : ∀ t : Table, t.name = name → Store.table? ⟨s.tables ++ [t]⟩ name = some t := by
    rintro t rfl
    rw [table?, List.find?_append, show s.tables.find? _ = none from takes.free]
    simp [sameName, Text.sameAscii]
  rw [Store.query_selectAll takes.unquoted (found _ rfl) (by simp +contextual [lengths])]
  simp [zipWith_map_right, map_zipWith, SourceCell.cached]

/-- Of a row, the values that come back as the source gave them are those that are not lost. -/
theorem SourceCell.cached_row {row : List SourceCell}
    (held : Forall₂ (fun c v => v.HeldBy (.ofDeclared c.typeName)) columns row) :
    Forall₂ (fun (c, v) w => w = v.decode ↔ ¬ v.Lost c.typeName) (columns.zip row)
      (zipWith (fun c v => v.cached c.typeName) columns row) := by
  induction held with
  | nil => exact .nil
  | cons held _ ih => exact .cons (cached_eq_iff held) ih

/-- A table is made from any rows that a SQLite source can hold, and reading it gives back the values of the source
except those that are lost. -/
theorem Store.cached_values {rows : List (List SourceCell)} (takes : s.Takes name columns rows) :
    ∃ s' back, s.create name columns (rows.map (·.map SourceCell.decode)) = .ok s' ∧
      s'.query (selectAll name) [] = .ok ⟨columns.map ColumnInfo.declared, back⟩ ∧
      List.Forall₂ (fun row kept => List.Forall₂ (fun (c, v) w => w = v.decode ↔ ¬ v.Lost c.typeName) (columns.zip row) kept)
        rows back := by
  obtain ⟨s', created, read⟩ := Store.query_create takes
  refine ⟨s', _, created, read, ?_⟩
  rw [forall₂_map_right_iff, forall₂_same]
  exact fun row member => SourceCell.cached_row (takes.held row member)

/-- A date that a source has as a number is a text in the local table. -/
theorem Store.date_number_lost : ∃ s' w, ({} : Store).create "day_1" [⟨"day", "Date"⟩] [[.int 20240101]] = .ok s' ∧
      s'.query (selectAll "day_1") [] = .ok ⟨[⟨"day", "TEXT"⟩], [[w]]⟩ ∧ w ≠ .int 20240101 := by
  have takes : ({} : Store).Takes "day_1" [⟨"day", "Date"⟩] [[.cell (.int 20240101)]] :=
    { free := rfl
      unreserved := by decide +kernel
      unquoted := by decide +kernel
      nonempty := by decide
      distinct := by decide +kernel
      held := by simpa [SourceCell.HeldBy] using by decide +kernel }
  obtain ⟨s', back, created, read, rows⟩ := Store.cached_values takes
  obtain ⟨kept, _, row, none, rfl⟩ := forall₂_cons_left_iff.mp rows
  cases none
  obtain ⟨w, _, same, none, rfl⟩ := forall₂_cons_left_iff.mp row
  cases none
  have lost : (SourceCell.cell (.int 20240101)).Lost "Date" := by
    change Text.lower (Text.trim "Date") ∈ Affinity.textTypes
    decide +kernel
  exact ⟨s', w, created, read, fun equal => same.mp equal lost⟩

end Tables

end SemanticLayer
