import SemanticLayer.Proofs.Keys
import SemanticLayer.Proofs.OrderedSets

/-! # What a layer declares

What the checks of a manifest give, and the lookups by name. Objects have distinct names, so each is what the lookup by
its name gives. Relationships need not have distinct names: the last one of a name is found, and a model is given it in
the place of every other. Main statement: `Layer.lookups_agree`.
-/

namespace SemanticLayer

open List

section Lists

theorem eraseDups_eq_self {α : Type} [BEq α] [LawfulBEq α] {l : List α} (distinct : l.Nodup) : l.eraseDups = l := by
  induction l with
  | nil => rfl
  | cons a l ih =>
    obtain ⟨fresh, rest⟩ := nodup_cons.mp distinct
    have kept : l.filter (fun b => !b == a) = l := filter_eq_self.mpr fun b member => by
      simpa using fun same : b = a => fresh (same ▸ member)
    rw [eraseDups_cons, kept, ih rest]

end Lists

namespace Layer

variable {l : Layer} {name : String} {r : Relationship}

/-- A relationship joins two different models, by a condition that says columns of both and of nothing else. -/
theorem relationship_sound (member : r ∈ l.manifest.relationships) : ∃ first second condition,
    r.models = [first, second] ∧ first ≠ second ∧ (l.model? first).isSome = true ∧ (l.model? second).isSome = true ∧
    Sql.Expr.parseItem r.condition = .ok condition ∧
    ∀ name, name ∈ qualifiersOf condition.deepNames ↔ name ∈ r.models := by
  have sound := l.checks.2.2 r member
  unfold Manifest.checkRelationship at sound
  split at sound
  · rename_i first second models
    dsimp only at sound
    split at sound
    · cases sound
    split at sound
    · cases sound
    split at sound
    · cases sound
    split at sound
    · cases sound
    rename_i different known known' _ condition parsed
    split at sound
    · cases sound
    rename_i both
    simp only [Bool.not_eq_true', Bool.not_eq_false, Bool.and_eq_true, all_eq_true, contains_iff_mem] at both
    refine ⟨first, second, condition, models, by simpa using different, ?_, ?_, parsed,
      fun name => ⟨both.2 name, both.1 name⟩⟩
    · simpa [model?, Option.isSome_iff_ne_none] using known
    · simpa [model?, Option.isSome_iff_ne_none] using known'
  · cases sound

theorem relationship?_mem (found : l.relationship? name = some r) : r ∈ l.manifest.relationships ∧ r.name = name := by
  obtain ⟨listed, named⟩ := mem_and_key_of_find? Relationship.name found
  exact ⟨mem_reverse.mp listed, named⟩

/-- Every relationship is found by its name exactly if those of equal names are equal. -/
theorem relationship?_self_iff : (∀ r ∈ l.manifest.relationships, l.relationship? r.name = some r) ↔
      ∀ r ∈ l.manifest.relationships, ∀ r' ∈ l.manifest.relationships, r.name = r'.name → r = r' := by
  constructor
  · intro found r member r' member' same
    have first := found r member
    rw [same, found r' member'] at first
    exact (Option.some.inj first).symm
  · intro unique r member
    refine find?_eq_some_of_unique Relationship.name (fun a listed same => ?_) (mem_reverse.mpr member)
    exact unique a (mem_reverse.mp listed) r member same

/-- The names of the relationships that name a model. -/
def namesJoining (l : Layer) (model : String) : List String :=
  (l.manifest.relationships.filter (·.models.contains model)).map Relationship.name

namespace NameIndex

variable {index : NameIndex} {given : List String}

theorem names_cons {key model : String} {listed : List String} :
    names ((key, listed) :: index) model = if key = model then listed else index.names model := by
  unfold names
  rw [lookup_cons]
  by_cases same : key = model
  · simp [same]
  · rw [if_neg same, beq_false_of_ne (Ne.symm same)]

theorem names_note (name noted model : String) : (index.note name noted).names model = if noted = model then
      if name ∈ index.names model then index.names model else index.names model ++ [name] else index.names model := by
  induction index with
  | nil =>
    rw [note, names_cons]
    simp [names]
  | cons entry index ih =>
    obtain ⟨key, listed⟩ := entry
    rw [note]
    by_cases here : key = noted
    · simp only [here, beq_self_eq_true, if_true, names_cons, contains_iff_mem]
      by_cases same : noted = model <;> simp [same]
    · rw [if_neg (by simpa using here), names_cons, names_cons, ih]
      by_cases same : key = model
      · simp [same, Ne.symm (same ▸ here)]
      · simp [same]

/-- Noting a name appends it, and a name that was given before is left out of the list. -/
theorem names_note_eraseDups {name model : String} (listed : index.names model = given.eraseDups) :
    (index.note name model).names model = (given ++ [name]).eraseDups := by
  rw [names_note, if_pos rfl, listed, eraseDups_append]
  by_cases before : name ∈ given
  · simp [before, removeAll]
  · simp [before, removeAll, eraseDups_cons]

/-- Noting a name under the models of a relationship notes it under each of them once. -/
theorem names_foldl_note {name model : String} {models : List String} (listed : index.names model = given.eraseDups) :
    (models.foldl (fun index m => index.note name m) index).names model =
      (if model ∈ models then given ++ [name] else given).eraseDups := by
  induction models generalizing index given with
  | nil => exact listed
  | cons m models ih =>
    rw [foldl_cons]
    by_cases same : m = model
    · subst same
      rw [ih (names_note_eraseDups listed), if_pos mem_cons_self]
      split
      · rw [eraseDups_append, show removeAll [name] (given ++ [name]) = [] by simp [removeAll], eraseDups_nil, append_nil]
      · rfl
    · have kept : (index.note name m).names model = given.eraseDups := by rw [names_note, if_neg same, listed]
      rw [ih kept]
      simp [Ne.symm same]

end NameIndex

/-- The index lists under a model the names of the relationships that name it, each where it is first. -/
theorem relationshipsByModel_names (l : Layer) (model : String) :
    (relationshipsByModel l.manifest.relationships).names model = (l.namesJoining model).eraseDups := by
  have indexed : ∀ (rs : List Relationship) (index : NameIndex) (given : List String),
      index.names model = given.eraseDups →
      (rs.foldl (fun index r => r.models.foldl (fun index m => index.note r.name m) index) index).names model =
        (given ++ (rs.filter (·.models.contains model)).map Relationship.name).eraseDups := by
    intro rs
    induction rs with
    | nil =>
      intro index given listed
      rw [filter_nil, map_nil, append_nil]
      exact listed
    | cons r rs ih =>
      intro index given listed
      rw [foldl_cons, ih _ _ (NameIndex.names_foldl_note listed)]
      by_cases joins : model ∈ r.models <;> simp [joins]
  exact indexed _ [] [] rfl

/-- The relationships that a model is given have the names of those that name it, each once. -/
theorem relationshipsOf_names (l : Layer) (model : String) :
    (l.relationshipsOf model).map Relationship.name = (l.namesJoining model).eraseDups := by
  have found : ∀ name ∈ (l.namesJoining model).eraseDups, ∃ r, l.relationship? name = some r := by
    intro name member
    obtain ⟨r, listed, rfl⟩ := mem_map.mp (mem_eraseDups.mp member)
    refine Option.isSome_iff_exists.mp (find?_isSome_iff.mpr ?_)
    exact mem_map_of_mem (mem_reverse.mpr (mem_filter.mp listed).1)
  rw [relationshipsOf, relationshipsByModel_names]
  generalize (l.namesJoining model).eraseDups = names at found
  induction names with
  | nil => rfl
  | cons name names ih =>
    obtain ⟨⟨r, first⟩, others⟩ := forall_mem_cons.mp found
    rw [filterMap_cons_some first, map_cons, (relationship?_mem first).2, ih others]

theorem relationship?_of_mem {model : String} (member : r ∈ l.relationshipsOf model) :
    l.relationship? r.name = some r := by
  obtain ⟨name, _, found⟩ := mem_filterMap.mp member
  rwa [(relationship?_mem found).2]

/-- Every model is given the relationships that name it exactly if no two relationships share a name. -/
theorem relationshipsOf_eq_iff :
    (∀ model, l.relationshipsOf model = l.manifest.relationships.filter (·.models.contains model)) ↔
      (l.manifest.relationships.map Relationship.name).Nodup := by
  constructor
  · intro agrees
    -- each relationship is then found by its name, so those of one name are equal and join the same models
    have joining : ∀ r ∈ l.manifest.relationships, ∃ model, r ∈ l.relationshipsOf model := by
      intro r member
      obtain ⟨first, second, _, models, _⟩ := relationship_sound member
      exact ⟨first, agrees first ▸ mem_filter.mpr ⟨member, by simp [models]⟩⟩
    have found : ∀ r ∈ l.manifest.relationships, l.relationship? r.name = some r := fun r member =>
      let ⟨_, joins⟩ := joining r member
      relationship?_of_mem joins
    refine nodup_iff_sublist.mpr fun name twice => ?_
    obtain ⟨rs, within, named⟩ := sublist_map_iff.mp twice
    obtain ⟨r, rest, rfl, rfl, named⟩ := map_eq_cons_iff.mp named.symm
    obtain ⟨r', rest, rfl, same, named⟩ := map_eq_cons_iff.mp named
    obtain rfl := map_eq_nil_iff.mp named
    have member := within.subset mem_cons_self
    have equal : r' = r := by
      have first := found r' (within.subset (mem_cons_of_mem _ mem_cons_self))
      rw [same, found r member] at first
      exact (Option.some.inj first).symm
    obtain ⟨model, joins⟩ := joining r member
    rw [agrees model] at joins
    have both : [r, r].Sublist (l.relationshipsOf model) := by
      have kept := within.filter fun r => r.models.contains model
      rwa [equal, filter_eq_self.mpr (by simpa using (mem_filter.mp joins).2), ← agrees model] at kept
    have once : ((l.relationshipsOf model).map Relationship.name).Nodup := by
      rw [relationshipsOf_names]
      exact nodup_eraseDups _
    exact nodup_iff_sublist.mp once r.name (both.map _)
  · intro distinct model
    have unique := relationship?_self_iff (l := l).mpr fun r member r' member' same =>
      inj_on_of_nodup_map distinct member member' same
    have once : (l.namesJoining model).Nodup := distinct.sublist (filter_sublist.map _)
    rw [relationshipsOf, relationshipsByModel_names, eraseDups_eq_self once, namesJoining, filterMap_map]
    refine (filterMap_eq_map_iff_forall_eq_some.mpr fun r member => ?_).trans (map_id _)
    exact unique r (mem_filter.mp member).1

/-- Models, metrics, cumulative metrics and views are what the lookup by their names gives, and a name has the kind of
the list that it is in, which is one only. A relationship is found by its name unless a later one bears it too. The
relationships of a model are those that name it, with the last one of a name in the place of the first: exactly these if
no two relationships share a name. -/
theorem lookups_agree (l : Layer) : (∀ name m, l.model? name = some m ↔ m ∈ l.manifest.models ∧ m.name = name) ∧
    (∀ name m, l.metric? name = some m ↔ m ∈ l.manifest.metrics ∧ m.name = name) ∧
    (∀ name m, l.cumulativeMetric? name = some m ↔ m ∈ l.manifest.cumulativeMetrics ∧ m.name = name) ∧
    (∀ name v, l.view? name = some v ↔ v ∈ l.manifest.views ∧ v.name = name) ∧
    (∀ name kind, l.kind? name = some kind ↔ name ∈ l.manifest.namesOf kind) ∧
    ((∀ r ∈ l.manifest.relationships, l.relationship? r.name = some r) ↔
      ∀ r ∈ l.manifest.relationships, ∀ r' ∈ l.manifest.relationships, r.name = r'.name → r = r') ∧
    (∀ model, (l.relationshipsOf model).map Relationship.name = (l.namesJoining model).eraseDups ∧
      ∀ r ∈ l.relationshipsOf model, l.relationship? r.name = some r) ∧
    ((∀ model, l.relationshipsOf model = l.manifest.relationships.filter (·.models.contains model)) ↔
      (l.manifest.relationships.map Relationship.name).Nodup) := by
  have distinct := l.objectNames_nodup
  simp only [Manifest.objectNames, nodup_append] at distinct
  refine ⟨?_, ?_, ?_, ?_, fun _ _ => kind?_eq_some_iff, relationship?_self_iff, fun model => ?_, relationshipsOf_eq_iff⟩
  · exact fun _ _ => find?_eq_some_iff _ distinct.1.1.1
  · exact fun _ _ => find?_eq_some_iff _ distinct.1.1.2.1
  · exact fun _ _ => find?_eq_some_iff _ distinct.1.2.1
  · exact fun _ _ => find?_eq_some_iff _ distinct.2.1
  · exact ⟨l.relationshipsOf_names model, fun r => relationship?_of_mem⟩

/-- Two relationships of a model bear one name: the model is given the second only, and so is a model that just the
first one names. -/
theorem second_relationship_found : ∃ l : Layer, ∃ first second : Relationship,
    l.manifest.relationships = [first, second] ∧ first.models = ["A", "B"] ∧ second.models = ["A", "C"] ∧
    l.relationshipsOf "A" = [second] ∧ l.relationshipsOf "B" = [second] ∧
    ¬ ∀ model, l.relationshipsOf model = l.manifest.relationships.filter (·.models.contains model) := by
  let first : Relationship := ⟨"R", ["A", "B"], .oneToOne, "A.id = B.key"⟩
  let second : Relationship := ⟨"R", ["A", "C"], .oneToOne, "A.id = C.id"⟩
  let model (name : String) : Model := { name, refSql := some "select 1" }
  let l : Layer :=
    { manifest := { catalog := "mdl", schema := "test", models := ["A", "B", "C"].map model
                    relationships := [first, second] }
      checked := by decide +kernel }
  refine ⟨l, first, second, rfl, rfl, rfl, by decide +kernel, by decide +kernel, fun agrees => ?_⟩
  have distinct := l.lookups_agree.2.2.2.2.2.2.2.mp agrees
  simp [l, first, second] at distinct

end Layer

end SemanticLayer
