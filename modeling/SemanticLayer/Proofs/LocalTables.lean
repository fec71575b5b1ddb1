import Mathlib.Data.List.Basic
import SemanticLayer.Cache.Step

/-! # Local tables

Two tasks write to tables that the store tells apart, although it does not regard case. So the store
finds the table of a task as the task has written it, whatever other tasks write and drop.
-/

namespace SemanticLayer

open List

section Names

def hexDigit (c : Char) : Nat := if c.isDigit then c.toNat - '0'.toNat else c.toNat - 'a'.toNat + 10

def hexNumber (cs : List Char) : Nat := cs.foldl (fun n c => 16 * n + hexDigit c) 0

theorem hexNumber_append (cs : List Char) (c : Char) : hexNumber (cs ++ [c]) = 16 * hexNumber cs + hexDigit c := by
  simp [hexNumber]

theorem hexDigit_digitChar : ∀ d < 16,
    hexDigit d.digitChar = d ∧ d.digitChar.toLower = d.digitChar ∧ d.digitChar ≠ '_' := by
  decide

theorem hexNumber_toDigits (n : Nat) : hexNumber (Nat.toDigits 16 n) = n := by
  induction n using Nat.strongRecOn with
  | ind n ih =>
    rw [Nat.toDigits_eq_if (by decide)]
    split
    · rename_i small
      simpa [hexNumber] using (hexDigit_digitChar n small).1
    · rename_i large
      rw [hexNumber_append, ih (n / 16) (by omega), (hexDigit_digitChar (n % 16) (by omega)).1]
      omega

theorem mem_toDigits {n : Nat} {c : Char} (member : c ∈ Nat.toDigits 16 n) : ∃ d < 16, c = d.digitChar := by
  induction n using Nat.strongRecOn with
  | ind n ih =>
    rw [Nat.toDigits_eq_if (by decide)] at member
    split at member
    · rename_i small
      exact ⟨n, small, mem_singleton.mp member⟩
    · rename_i large
      rcases mem_append.mp member with early | last
      · exact ih (n / 16) (by omega) early
      · exact ⟨n % 16, by omega, mem_singleton.mp last⟩

namespace Task

theorem hexId_toList (id : Nat) :
    (hexId id).toList = replicate (32 - (Nat.toDigits 16 id).length) '0' ++ Nat.toDigits 16 id := by
  simp [hexId]

theorem hexNumber_hexId (id : Nat) : hexNumber (hexId id).toList = id := by
  have zeros : ∀ count, (replicate count '0').foldl (fun n c => 16 * n + hexDigit c) 0 = 0 := by
    intro count
    induction count with
    | zero => rfl
    | succ count ih =>
      rw [replicate_succ, foldl_cons]
      exact ih
  rw [hexId_toList, hexNumber, foldl_append, zeros]
  exact hexNumber_toDigits id

theorem mem_hexId {id : Nat} {c : Char} (member : c ∈ (hexId id).toList) : c.toLower = c ∧ c ≠ '_' := by
  rw [hexId_toList] at member
  rcases mem_append.mp member with zero | digit
  · rw [eq_of_mem_replicate zero]
    decide
  · obtain ⟨d, small, rfl⟩ := mem_toDigits digit
    exact (hexDigit_digitChar d small).2

theorem tableName_lower (key : TableName) (id : Nat) :
    (Text.lowerAscii (tableName key id)).toList = key.table.toList.map Char.toLower ++ '_' :: (hexId id).toList := by
  have digits : (hexId id).toList.map Char.toLower = (hexId id).toList :=
    (map_congr_left fun c member => (mem_hexId member).1).trans (map_id _)
  simp [Text.lowerAscii, tableName, digits]

/-- What follows the last underscore of a name is the number of the task that writes to the table. -/
theorem number_of_tableName (key : TableName) (id : Nat) :
    hexNumber ((Text.lowerAscii (tableName key id)).toList.reverse.takeWhile (· ≠ '_')).reverse = id := by
  have free : ∀ c ∈ (hexId id).toList.reverse, decide (c ≠ '_') = true := fun c member =>
    decide_eq_true (mem_hexId (mem_reverse.mp member)).2
  rw [tableName_lower, reverse_append, reverse_cons, append_assoc,
    takeWhile_append_of_pos free, singleton_append, takeWhile_cons_of_neg (by decide),
    append_nil, reverse_reverse, hexNumber_hexId]

theorem id_of_sameName {key key' : TableName} {id id' : Nat}
    (same : sameName (tableName key id) (tableName key' id') = true) : id = id' := by
  have lower : Text.lowerAscii (tableName key id) = Text.lowerAscii (tableName key' id') := eq_of_beq same
  rw [← number_of_tableName key id, lower, number_of_tableName]

end Task

end Names

theorem sameName_comm {a b : String} (apart : sameName a b = false) : sameName b a = false := by
  rw [sameName, Text.sameAscii, Bool.beq_comm]
  exact apart

namespace Store

variable {s alone : Store} {name other : String} {columns : List ColumnInfo} {rows : List (List Value)}

theorem fill_append (cells : List (List Cell)) (tables : List Table) (t : Table) :
    fill cells (tables ++ [t]) = tables ++ [{ t with rows := cells }] := by
  induction tables with
  | nil => rfl
  | cons first tables ih =>
    cases tables with
    | nil => rfl
    | cons second tables => exact congrArg (first :: ·) ih

/-- Where a name is free, a table is added whenever an empty store would add it. -/
theorem createEmpty_of_free (free : s.table? name = none) : s.createEmpty name columns =
      (({} : Store).createEmpty name columns).map fun _ => ⟨s.tables ++ [{ name := name, columns := columns }]⟩ := by
  have none : ({} : Store).table? name = none := rfl
  unfold createEmpty
  rw [free, none]
  cases (Text.lowerAscii name).startsWith "sqlite_" with
  | true => rfl
  | false =>
    cases columns.isEmpty with
    | true => rfl
    | false => cases repeatedName? (columns.map (·.name)) <;> rfl

theorem create_of_free (free : s.table? name = none) : s.create name columns rows =
      (({} : Store).create name columns rows).map fun alone => ⟨s.tables ++ alone.tables⟩ := by
  unfold create
  dsimp only
  rw [createEmpty_of_free free, createEmpty_of_free (s := {}) rfl]
  cases ({} : Store).createEmpty name _ with
  | error e => rfl
  | ok empty =>
    dsimp only [Except.map, bind, Except.bind]
    cases rows.mapM (keepRow _) with
    | error e => rfl
    | ok cells => exact congrArg (fun tables => Except.ok (mk tables)) (fill_append cells s.tables _)

theorem create_alone (created : ({} : Store).create name columns rows = .ok alone) :
    ∃ t : Table, alone.tables = [t] ∧ t.name = name := by
  unfold create at created
  dsimp only at created
  rw [createEmpty_of_free (s := {}) rfl] at created
  cases empty : ({} : Store).createEmpty name _ with
  | error e =>
    rw [empty] at created
    cases created
  | ok empty' =>
    rw [empty] at created
    dsimp only [Except.map, bind, Except.bind] at created
    cases cells : rows.mapM (keepRow _) with
    | error e =>
      rw [cells] at created
      cases created
    | ok cells' =>
      rw [cells] at created
      cases created
      exact ⟨_, rfl, rfl⟩

end Store

namespace Cache

variable {c : Cache} {settings : CacheSettings} {key : TableName} {table other : String} {alone : Store}
  {answer : Except SourceError Records}

theorem writeTable_of_free (free : c.store.table? table = none) : c.writeTable settings key table answer =
      (({} : Cache).writeTable settings key table answer).map fun alone => ⟨c.store.tables ++ alone.tables⟩ := by
  unfold writeTable
  cases answer with
  | error e => rfl
  | ok records =>
    dsimp only
    split
    · rfl
    · rw [Store.create_of_free free]
      cases ({} : Store).create table records.columns records.rows <;> rfl

theorem writeTable_alone (written : ({} : Cache).writeTable settings key table answer = .ok alone) :
    ∃ t : Table, alone.tables = [t] ∧ t.name = table := by
  unfold writeTable at written
  cases answer with
  | error e => cases written
  | ok records =>
    dsimp only at written
    split at written
    · cases written
    · split at written
      · rename_i created
        cases written
        exact Store.create_alone created
      · cases written

end Cache

/-- The local store with the table that a run makes, had it the store for itself. -/
def Layer.materialize (l : Layer) (settings : CacheSettings) (reply : String → Except SourceError Records)
    (key : TableName) (table : String) : Except CacheError Store :=
  match l.objectSql settings.backend key with
  | .error e => .error (.sql e)
  | .ok sql => ({} : Cache).writeTable settings key table (reply sql)

end SemanticLayer
