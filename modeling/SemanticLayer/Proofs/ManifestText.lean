import Mathlib.Data.List.Nodup
import SemanticLayer.Manifest.Reader
import SemanticLayer.Proofs.DurationText
import SemanticLayer.Proofs.JsonText

/-! # Manifests are read back from their documents

Every record is written with each of its fields at most once, under the name it is read by. Fields
that are left out are read as what is missing.
-/

namespace SemanticLayer

open List

namespace Properties

theorem insertEntry_last {name value : String} {entries : List (String × String)}
    (last : ∀ e ∈ entries, e.1 < name) : insertEntry name value entries = entries ++ [(name, value)] := by
  induction entries with
  | nil => rfl
  | cons first rest ih =>
    have before : first.1 < name := last first mem_cons_self
    have notBefore : ¬ name < first.1 := String.lt_asymm before
    have notSame : name ≠ first.1 := fun same => String.lt_irrefl name (same ▸ before)
    simp [insertEntry, notBefore, notSame, ih fun e member => last e (mem_cons_of_mem _ member)]

theorem entries_foldl_insert {entries : List (String × String)} {p : Properties}
    (sorted : (p.entries ++ entries).Pairwise fun a b => a.1 < b.1) :
    (entries.foldl (fun p e => p.insert e.1 e.2) p).entries = p.entries ++ entries := by
  induction entries generalizing p with
  | nil => simp
  | cons first rest ih =>
    have last : ∀ e ∈ p.entries, e.1 < first.1 := fun e member =>
      (pairwise_append.mp sorted).2.2 e member first mem_cons_self
    have step : (p.insert first.1 first.2).entries = p.entries ++ [first] := insertEntry_last last
    rw [foldl_cons, ih (by rw [step]; simpa using sorted), step]
    simp

theorem ofList_entries (p : Properties) : ofList p.entries = p := by
  have same : (ofList p.entries).entries = p.entries := entries_foldl_insert p.sorted
  cases p
  cases h : ofList _
  simp_all

def json? (p : Properties) : Option Json :=
  if p.entries = [] then none else some (.object (p.entries.map fun e => (e.1, .string e.2)))

end Properties

theorem mapM_map_of_inverse {α β : Type} {write : α → β} {read : β → Option α} {xs : List α}
    (inverse : ∀ x ∈ xs, read (write x) = some x) : (xs.map write).mapM read = some xs := by
  induction xs with
  | nil => rfl
  | cons x xs ih =>
    simp [inverse x mem_cons_self, ih fun x member => inverse x (mem_cons_of_mem _ member)]

namespace Members

section Lookup

variable (name other : String)

@[simp] theorem lookup_cons (j : Json) (ms : Members) :
    lookup name ((other, j) :: ms) = if name = other then some j else ms.lookup name := by
  by_cases same : name = other
  · simp [same]
  · simp [List.lookup_cons, same, beq_eq_false_iff_ne.mpr same]

@[simp] theorem lookup_optionalMember (o : Option String) :
    (optionalMember other o).lookup name = if name = other then o.map Json.string else none := by
  cases o with
  | none => simp [optionalMember]
  | some s => simp [optionalMember, lookup_cons]

@[simp] theorem lookup_refreshMember (o : Option Duration) :
    (refreshMember o).lookup name = if name = "refreshTime" then o.map fun d => Json.string d.render else none := by
  cases o with
  | none => simp [refreshMember]
  | some d => simp [refreshMember, lookup_cons]

@[simp] theorem lookup_propertiesMember (p : Properties) :
    (propertiesMember p).lookup name = if name = "properties" then p.json? else none := by
  unfold propertiesMember Properties.json?
  split
  · rename_i none
    simp [none]
  · rename_i some
    simp [lookup_cons, if_neg some]

end Lookup

abbrev names (ms : Members) : List String := ms.map Prod.fst

section Names

variable {name other : String} (o : Option String) (refresh : Option Duration) (p : Properties)

@[simp] theorem mem_names_optionalMember : other ∈ names (optionalMember name o) ↔ other = name ∧ o.isSome := by
  cases o <;> simp [optionalMember]

@[simp] theorem nodup_optionalMember : (names (optionalMember name o)).Nodup := by
  cases o <;> simp [optionalMember]

@[simp] theorem mem_names_refreshMember : other ∈ names (refreshMember refresh) ↔
    other = "refreshTime" ∧ refresh.isSome := by
  cases refresh <;> simp [refreshMember]

@[simp] theorem nodup_refreshMember : (names (refreshMember refresh)).Nodup := by
  cases refresh <;> simp [refreshMember]

@[simp] theorem mem_names_propertiesMember : other ∈ names (propertiesMember p) ↔
    other = "properties" ∧ p.entries ≠ [] := by
  unfold propertiesMember
  split <;> simp_all

@[simp] theorem nodup_propertiesMember : (names (propertiesMember p)).Nodup := by
  unfold propertiesMember
  split <;> simp

end Names

/-- Members that are written once each are a record. -/
theorem ofJson_object {ms : Members} (distinct : ms.names.Nodup) (fields : List String) :
    ofJson? fields (.object ms) = some ms := by
  have once : ∀ n, (ms.filter fun m => m.1 == n).length ≤ 1 := by
    intro n
    calc (ms.filter fun m => m.1 == n).length
      _ = ms.names.count n := by
        rw [count, countP_map, countP_eq_length_filter]
        rfl
      _ ≤ 1 := nodup_iff_count_le_one.mp distinct n
  have many : ¬ fields.any fun n => 1 < (ms.filter fun m => m.1 == n).length := by
    simpa using fun n _ => once n
  rw [ofJson?, if_neg many]

/-! A field is read from what is found under its name. -/

def optionalOf : Option Json → Option (Option String)
  | none | some .null => some none
  | some (.string s) => some (some s)
  | some _ => none

def flagOf : Option Json → Option Bool
  | none => some false
  | some j => j.asBool?

def listOf {α : Type} (read? : Json → Option α) : Option Json → Option (List α)
  | none => some []
  | some (.array items) => items.mapM read?
  | some _ => none

def durationOf (found : Option Json) : Option (Option Duration) := do
  match ← optionalOf found with
  | none => return none
  | some text =>
    match Duration.parse text with
    | .ok d => return some d
    | .error _ => none

def propertiesOf : Option Json → Option Properties
  | none => some .empty
  | some (.object members) => do
    let pairs ← members.mapM fun m => do return (m.1, ← m.2.asString?)
    return .ofList pairs
  | some _ => none

section Fields

variable (ms : Members) (name : String)

@[simp] theorem text_eq : ms.text? name = (ms.lookup name).bind Json.asString? := rfl

@[simp] theorem flag_eq : ms.flag? name = flagOf (ms.lookup name) := rfl

@[simp] theorem optional_eq : ms.optional? name = optionalOf (ms.lookup name) := rfl

@[simp] theorem list_eq {α : Type} (read? : Json → Option α) :
    ms.list? name read? = listOf read? (ms.lookup name) := rfl

@[simp] theorem refreshTime_eq : ms.refreshTime? = durationOf (ms.lookup "refreshTime") := rfl

@[simp] theorem properties_eq : ms.properties? = propertiesOf (ms.lookup "properties") := rfl

end Fields

@[simp] theorem flagOf_bool (b : Bool) : flagOf (some (.bool b)) = some b := rfl

@[simp] theorem asString_string (s : String) : (Json.string s).asString? = some s := rfl

@[simp] theorem asArray_array (items : List Json) : (Json.array items).asArray? = some items := rfl

@[simp] theorem optionalOf_string (o : Option String) : optionalOf (o.map Json.string) = some o := by
  cases o <;> rfl

theorem listOf_array {α : Type} {write : α → Json} {read : Json → Option α} (xs : List α)
    (inverse : ∀ x ∈ xs, read (write x) = some x) : listOf read (some (.array (xs.map write))) = some xs :=
  mapM_map_of_inverse inverse

theorem durationOf_render {o : Option Duration} (counted : ∀ d ∈ o, d.nanos / d.largestUnit.nanos < Nat.pow 2 64) :
    durationOf (o.map fun d => .string d.render) = some o := by
  cases o with
  | none => rfl
  | some d => simp [durationOf, optionalOf, Duration.parse_render (counted d rfl)]

@[simp] theorem propertiesOf_json (p : Properties) : propertiesOf p.json? = some p := by
  unfold Properties.json?
  split
  · rename_i none
    cases p
    cases none
    rfl
  · have pairs : ((p.entries.map fun e => (e.1, Json.string e.2)).mapM fun m => do
        return (m.1, ← m.2.asString?)) = some p.entries :=
      mapM_map_of_inverse fun e member => rfl
    rw [propertiesOf, pairs]
    exact congrArg some p.ofList_entries

end Members

open Members

theorem Column.ofJson_toJson (c : Column) : ofJson? c.toJson = some c := by
  rw [toJson, ofJson?, ofJson_object]
  · simp [lookup_append]
  · simp [nodup_append, or_imp, forall_and]

theorem Model.ofJson_toJson {m : Model} (counted : ∀ d ∈ m.refreshTime, d.nanos / d.largestUnit.nanos < Nat.pow 2 64) :
    ofJson? m.toJson = some m := by
  have columns := listOf_array m.columns fun c _ => c.ofJson_toJson
  rw [toJson, ofJson?, ofJson_object]
  · simp [lookup_append, columns, durationOf_render counted]
  · simp [nodup_append, or_imp, forall_and]

theorem Cardinality.ofJson_name (c : Cardinality) : ofJson? (.string c.name) = some c := by
  cases c <;> rfl

theorem Relationship.ofJson_toJson (r : Relationship) : ofJson? r.toJson = some r := by
  have models : (r.models.map Json.string).mapM Json.asString? = some r.models :=
    mapM_map_of_inverse fun _ _ => rfl
  rw [toJson, ofJson?, ofJson_object]
  · simp [models, r.cardinality.ofJson_name]
  · simp

theorem TimeUnit.ofJson_name (u : TimeUnit) : ofJson? (.string u.name) = some u := by
  cases u <;> rfl

theorem TimeGrain.ofJson_toJson (g : TimeGrain) : ofJson? g.toJson = some g := by
  have parts := listOf_array g.dateParts fun u _ => u.ofJson_name
  rw [toJson, ofJson?, ofJson_object]
  · simp [parts]
  · simp

theorem Metric.ofJson_toJson {m : Metric} (counted : ∀ d ∈ m.refreshTime, d.nanos / d.largestUnit.nanos < Nat.pow 2 64) :
    ofJson? m.toJson = some m := by
  have dimension := listOf_array m.dimension fun c _ => c.ofJson_toJson
  have measure := listOf_array m.measure fun c _ => c.ofJson_toJson
  have grains := listOf_array m.timeGrain fun g _ => g.ofJson_toJson
  rw [toJson, ofJson?, ofJson_object]
  · simp [lookup_append, dimension, measure, grains, durationOf_render counted]
  · simp [nodup_append]

theorem Measure.ofJson_toJson (m : Measure) : ofJson? m.toJson = some m := by
  rw [toJson, ofJson?, ofJson_object]
  · simp
  · simp

theorem TimeWindow.ofJson_toJson (w : TimeWindow) : ofJson? w.toJson = some w := by
  rw [toJson, ofJson?, ofJson_object]
  · simp [lookup_append, w.timeUnit.ofJson_name]
  · simp [nodup_append]

theorem CumulativeMetric.ofJson_toJson {m : CumulativeMetric}
    (counted : ∀ d ∈ m.refreshTime, d.nanos / d.largestUnit.nanos < Nat.pow 2 64) : ofJson? m.toJson = some m := by
  rw [toJson, ofJson?, ofJson_object]
  · simp [lookup_append, m.measure.ofJson_toJson, m.window.ofJson_toJson, durationOf_render counted]
  · simp [nodup_append]

theorem View.ofJson_toJson (v : View) : ofJson? v.toJson = some v := by
  rw [toJson, ofJson?, ofJson_object]
  · simp [lookup_append]
  · simp [nodup_append]

theorem EnumValue.ofJson_toJson (v : EnumValue) : ofJson? v.toJson = some v := by
  rw [toJson, ofJson?, ofJson_object]
  · simp
  · simp

theorem EnumDefinition.ofJson_toJson (e : EnumDefinition) : ofJson? e.toJson = some e := by
  have values : (e.values.map EnumValue.toJson).mapM EnumValue.ofJson? = some e.values :=
    mapM_map_of_inverse fun v _ => v.ofJson_toJson
  rw [toJson, ofJson?, ofJson_object]
  · simp [values]
  · simp

namespace Manifest

def refreshTimes (m : Manifest) : List Duration :=
  m.models.filterMap Model.refreshTime ++ m.metrics.filterMap Metric.refreshTime ++
    m.cumulativeMetrics.filterMap CumulativeMetric.refreshTime

theorem ofJson_toJson {m : Manifest} (counted : ∀ d ∈ m.refreshTimes, d.nanos / d.largestUnit.nanos < Nat.pow 2 64) :
    ofJson? m.toJson = some m := by
  simp only [refreshTimes, mem_append, mem_filterMap] at counted
  have models := listOf_array m.models fun x member =>
    x.ofJson_toJson fun d refresh => counted d (.inl (.inl ⟨x, member, refresh⟩))
  have relationships := listOf_array m.relationships fun r _ => r.ofJson_toJson
  have metrics := listOf_array m.metrics fun x member =>
    x.ofJson_toJson fun d refresh => counted d (.inl (.inr ⟨x, member, refresh⟩))
  have cumulative := listOf_array m.cumulativeMetrics fun x member =>
    x.ofJson_toJson fun d refresh => counted d (.inr ⟨x, member, refresh⟩)
  have views := listOf_array m.views fun v _ => v.ofJson_toJson
  have enums := listOf_array m.enums fun e _ => e.ofJson_toJson
  rw [toJson, ofJson?, ofJson_object]
  · simp [models, relationships, metrics, cumulative, views, enums]
  · simp

end Manifest

/-! ## Documents

No record has a number, so its document is read back.
-/

open Json (Numberless)

attribute [simp] Numberless.string Numberless.bool

namespace Members

/-- No member holds a number. -/
def Plain (ms : Members) : Prop := ∀ member ∈ ms, member.2.Numberless

@[simp] theorem plain_nil : Plain [] := forall_mem_nil _

@[simp] theorem plain_cons (name : String) (j : Json) (ms : Members) :
    Plain ((name, j) :: ms) ↔ j.Numberless ∧ ms.Plain := forall_mem_cons

@[simp] theorem plain_append (ms others : Members) : Plain (ms ++ others) ↔ ms.Plain ∧ others.Plain :=
  forall_mem_append

@[simp] theorem plain_optionalMember (name : String) (o : Option String) : (optionalMember name o).Plain := by
  cases o <;> simp [optionalMember]

@[simp] theorem plain_refreshMember (o : Option Duration) : (refreshMember o).Plain := by
  cases o <;> simp [refreshMember]

@[simp] theorem plain_propertiesMember (p : Properties) : (propertiesMember p).Plain := by
  unfold propertiesMember
  split
  · exact plain_nil
  · have texts : Plain (p.entries.map fun e => (e.1, .string e.2)) := by
      simp only [Plain, forall_mem_map, Numberless.string, implies_true]
    simpa using Numberless.object texts

end Members

theorem Members.Plain.object {ms : Members} (plain : ms.Plain) : (Json.object ms).Numberless :=
  .object plain

theorem Json.Numberless.map {α : Type} {write : α → Json} (plain : ∀ x, (write x).Numberless)
    (xs : List α) : (Json.array (xs.map write)).Numberless := by
  apply Numberless.array
  simpa using fun x _ => plain x

theorem Column.numberless (c : Column) : c.toJson.Numberless := by
  apply Plain.object
  simp

theorem Model.numberless (m : Model) : m.toJson.Numberless := by
  apply Plain.object
  simp [Numberless.map Column.numberless]

theorem Relationship.numberless (r : Relationship) : r.toJson.Numberless := by
  apply Plain.object
  simp [Numberless.map Numberless.string]

theorem TimeGrain.numberless (g : TimeGrain) : g.toJson.Numberless := by
  apply Plain.object
  simp [Numberless.map fun u : TimeUnit => Numberless.string u.name]

theorem Metric.numberless (m : Metric) : m.toJson.Numberless := by
  apply Plain.object
  simp [Numberless.map Column.numberless, Numberless.map TimeGrain.numberless]

theorem Measure.numberless (m : Measure) : m.toJson.Numberless := by
  apply Plain.object
  simp

theorem TimeWindow.numberless (w : TimeWindow) : w.toJson.Numberless := by
  apply Plain.object
  simp

theorem CumulativeMetric.numberless (m : CumulativeMetric) : m.toJson.Numberless := by
  apply Plain.object
  simp [m.measure.numberless, m.window.numberless]

theorem View.numberless (v : View) : v.toJson.Numberless := by
  apply Plain.object
  simp

theorem EnumValue.numberless (v : EnumValue) : v.toJson.Numberless := by
  apply Plain.object
  simp

theorem EnumDefinition.numberless (e : EnumDefinition) : e.toJson.Numberless := by
  apply Plain.object
  simp [Numberless.map EnumValue.numberless]

namespace Manifest

theorem numberless (m : Manifest) : m.toJson.Numberless := by
  apply Plain.object
  simp [Numberless.map Model.numberless, Numberless.map Relationship.numberless,
    Numberless.map Metric.numberless, Numberless.map CumulativeMetric.numberless,
    Numberless.map View.numberless, Numberless.map EnumDefinition.numberless]

/-- A manifest is read back from its document, if each of its refresh times is a number of 64 bits of
    the unit it is written in. -/
theorem parse_rendered (m : Manifest) (counted : ∀ d ∈ m.refreshTimes, d.nanos / d.largestUnit.nanos < Nat.pow 2 64) :
    parse? m.render = some m := by
  rw [parse?, render, Json.read_pretty m.numberless, Option.bind_some, ofJson_toJson counted]

def quotedOrders : Manifest where
  catalog := "\"mdl\"\\"
  schema := ""
  models :=
    [{ name := "Orders\n\t\r", refSql := some "select '\x01\x1f\x7f' as \"größe\" from 订单",
       columns := [{ name := "day", typeName := "date", expression := some "", notNull := true,
                     properties := .ofList [("b", "\x08"), ("a", "😀"), ("b", "\x0c/")] }],
       refreshTime := some ⟨90000000000, by decide⟩ }]
  metrics :=
    [{ name := "Revenue", baseObject := "Orders", refreshTime := some .zero, description := some "null",
       timeGrain := [{ name := "day", refColumn := "day", dateParts := [.year, .week] }] }]
  cumulativeMetrics :=
    [{ name := "Total", baseObject := "Orders", preAggregated := true,
       measure := { name := "m", typeName := "integer", operator := "sum", refColumn := "price" },
       window := { name := "w", refColumn := "day", timeUnit := .month, stop := some "\\u0041" },
       refreshTime := some ⟨18446744073709551615, by decide⟩ }]
  enums := [{ name := "Status", values := [{ name := "F" }, { name := "O", value := some "[\"" }] }]

theorem quotedOrders_read_back : (∀ d ∈ quotedOrders.refreshTimes, d.nanos / d.largestUnit.nanos < Nat.pow 2 64) ∧
      parse? quotedOrders.render = some quotedOrders :=
  ⟨by decide +kernel, parse_rendered quotedOrders (by decide +kernel)⟩

end Manifest

end SemanticLayer
