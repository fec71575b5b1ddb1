import SemanticLayer.Proofs.JoinRules

/-! # Where joins are placed

The join for a relationship column stands behind the FROM item that the column's relation is found in by its name, and
it is called after that relation and the column. So a join is at home, and is told apart from other joins and relations,
as far as the names of relations can be told apart.
-/

namespace SemanticLayer

open Sql List

section Placing

variable {kept source : List (FromItem Query)} {joins : List RelatedJoin} {j : RelatedJoin}

/-- A FROM item with further joins. -/
def Sql.FromItem.plus (item : FromItem Query) (added : List RelatedJoin) : FromItem Query :=
  { item with joins := item.joins ++ added.map RelatedJoin.toJoin }

/-- A FROM item gets some of the joins. These have new names, and this item has their owner if any item has. -/
def Sql.FromItem.Receives (kept : List (FromItem Query)) (joins : List RelatedJoin) (item item' : FromItem Query) :
    Prop :=
  ∃ added, item' = item.plus added ∧ ∀ j ∈ added, j ∈ joins ∧ j.label ∉ kept.flatMap relationNames ∧
    (j.owner ∈ kept.flatMap relationNames → j.owner ∈ relationNames item)

theorem Sql.FromItem.relations_plus (item : FromItem Query) (added : List RelatedJoin) :
    (item.plus added).relations = item.relations ++ added.map (·.toJoin.relation) := by
  simp [FromItem.relations, FromItem.plus]

theorem relationNames_plus (item : FromItem Query) (added : List RelatedJoin) :
    relationNames (item.plus added) = relationNames item ++ added.map (·.label) := by
  have labels : relationName? ∘ (fun j : RelatedJoin => j.toJoin.relation) = some ∘ RelatedJoin.label := by
    funext j
    simp [RelatedJoin.toJoin, Join.relation, relationName?]
  change (item.plus added).relations.filterMap relationName? = item.relations.filterMap relationName? ++ _
  rw [FromItem.relations_plus, filterMap_append, filterMap_map, labels, filterMap_eq_map]

theorem forall₂_modify {α β : Type} {r : α → β → Prop} {f : β → β} {l : List α} {l' : List β}
    (pairs : Forall₂ r l l') (i : Nat) (changed : ∀ a b, a ∈ l → l'[i]? = some b → r a b → r a (f b)) :
    Forall₂ r l (l'.modify i f) := by
  induction pairs generalizing i with
  | nil => simp
  | cons here rest ih =>
    cases i with
    | zero => exact .cons (changed _ _ mem_cons_self rfl here) rest
    | succ i => exact .cons here (ih i fun a b member => changed a b (mem_cons_of_mem _ member))

theorem names_subset_of_receives (received : Forall₂ (FromItem.Receives kept joins) kept source) :
    kept.flatMap relationNames ⊆ source.flatMap relationNames := by
  intro name named
  obtain ⟨item, member, here⟩ := mem_flatMap.mp named
  obtain ⟨_, member', added, rfl, _⟩ := forall₂_exists received item member
  exact mem_flatMap.mpr ⟨_, member', relationNames_plus item added ▸ mem_append_left _ here⟩

theorem RelatedJoin.place_receives (member : j ∈ joins)
    (received : Forall₂ (FromItem.Receives kept joins) kept source) :
    Forall₂ (FromItem.Receives kept joins) kept (j.place source) := by
  unfold RelatedJoin.place
  split
  · exact received
  · rename_i free
    have fresh : j.label ∉ source.flatMap relationNames := by simpa using free
    refine forall₂_modify received _ ?_
    rintro item _ listed found ⟨added, rfl, each⟩
    refine ⟨added ++ [j], by simp [appendJoin, FromItem.plus], forall_mem_append.mpr ⟨each, ?_⟩⟩
    refine forall_mem_singleton.mpr ⟨member, fun named => fresh (names_subset_of_receives received named),
      fun owner => ?_⟩
    -- The owner is found by its name, in an item that has had it from the start.
    have owned : (source.findIdx? fun item => (relationNames item).contains j.owner).isSome := by
      have named := names_subset_of_receives received owner
      simpa [findIdx?_isSome] using named
    obtain ⟨i, at_i⟩ := Option.isSome_iff_exists.mp owned
    obtain ⟨_, holds, _⟩ := findIdx?_eq_some_iff_getElem.mp at_i
    rw [at_i, Option.getD_some] at found
    obtain ⟨_, same⟩ := List.getElem?_eq_some_iff.mp found
    rw [same, relationNames_plus, contains_iff_mem, mem_append] at holds
    refine holds.resolve_right fun labelled => ?_
    obtain ⟨j', listed', label⟩ := mem_map.mp labelled
    exact (each j' listed').2.1 (label ▸ owner)

theorem placeJoins_receives (joins : List RelatedJoin) (kept : List (FromItem Query)) :
    Forall₂ (FromItem.Receives kept joins) kept (placeJoins joins kept) := by
  have placed : ∀ {some : List RelatedJoin} {source : List (FromItem Query)}, some ⊆ joins →
      Forall₂ (FromItem.Receives kept joins) kept source →
      Forall₂ (FromItem.Receives kept joins) kept (placeJoins some source) := by
    intro some
    induction some with
    | nil => exact fun _ received => received
    | cons j some ih =>
      intro source listed received
      obtain ⟨here, rest⟩ := cons_subset.mp listed
      exact ih rest (j.place_receives here received)
  exact placed (Subset.refl _) (forall₂_same.mpr fun item _ => ⟨[], by simp [FromItem.plus], by simp⟩)

theorem RelatedJoin.label_mem_place (j : RelatedJoin) (nonempty : source ≠ []) :
    j.label ∈ (j.place source).flatMap relationNames := by
  unfold RelatedJoin.place
  split
  · rename_i taken
    simpa using taken
  · have inside : (source.findIdx? fun item => (relationNames item).contains j.owner).getD 0 < source.length := by
      cases at_i : source.findIdx? fun item => (relationNames item).contains j.owner with
      | none => exact length_pos_iff.mpr nonempty
      | some i => exact (findIdx?_eq_some_iff_getElem.mp at_i).1
    obtain ⟨before, item, after, _, _, result⟩ := exists_of_modify (appendJoin j.toJoin) inside
    unfold appendWhere
    rw [result, Context.relationNames_appended]
    simp

theorem toJoin_mem_placeJoins (nonempty : kept ≠ []) (member : j ∈ joins) (fresh : j.label ∉ kept.flatMap relationNames)
    (only : ∀ j' ∈ joins, j'.label = j.label → j' = j) : ∃ item ∈ placeJoins joins kept, j.toJoin ∈ item.joins := by
  have named : j.label ∈ (placeJoins joins kept).flatMap relationNames := by
    obtain ⟨before, after, rfl⟩ := append_of_mem member
    have started : placeJoins before kept ≠ [] := by
      have same := (placeJoins_receives before kept).length_eq
      exact ne_nil_of_length_pos (same ▸ length_pos_iff.mpr nonempty)
    rw [placeJoins, foldl_append, foldl_cons]
    exact names_subset_of_receives (placeJoins_receives after _) (j.label_mem_place started)
  obtain ⟨item', listed, here⟩ := mem_flatMap.mp named
  obtain ⟨item, listed', added, rfl, each⟩ := forall₂_exists (placeJoins_receives joins kept).flip item' listed
  rw [relationNames_plus, mem_append] at here
  obtain ⟨j', new, label⟩ := mem_map.mp (here.resolve_left fun old => fresh (mem_flatMap.mpr ⟨item, listed', old⟩))
  cases only j' (each j' new).1 label
  exact ⟨_, listed, mem_append_right _ (mem_map_of_mem new)⟩

end Placing

section Reaching

variable {s : Scope} {frame : Frame} {f g : Field} {head : DottedName}

theorem Field.answersTo_alike (relation : g.relationName = f.relationName) (name : g.name = f.name)
    (head : DottedName) : g.answersTo head = f.answersTo head := by
  rw [answersTo, answersTo, relation, name]

/-- The relation of a column is not called like that of another one with an underscore behind it, and has the same full
name if it has the same last name. -/
def Field.Apart (f g : Field) : Prop :=
  ¬ f.qualifier.toList ++ ['_'] <+: g.qualifier.toList ∧ (g.qualifier = f.qualifier → g.relationName = f.relationName)
  deriving Decidable

instance (f : Field) (fields : List Field) : Decidable (f ∈ fields) := decidable_of_iff (∃ g ∈ fields, g = f) (by simp)

namespace Scope

/-- The scope finds a relationship column for some name. -/
def Reaches (s : Scope) (f : Field) : Prop := f.isRelationship = true ∧ ∃ head, s.resolve head = .ok (some f)

theorem resolve_cons_cases (meaning : resolve head (frame :: s) = .ok (some f)) :
    (f ∈ frame.fields ∧ ∀ g ∈ frame.fields, g.answersTo head = true → g = f) ∨
      (∀ g ∈ frame.fields, ¬ g.answersTo head = true) ∧ s.resolve head = .ok (some f) := by
  rw [resolve] at meaning
  split at meaning
  · rename_i empty
    exact .inr ⟨filter_eq_nil_iff.mp empty, meaning⟩
  · rename_i single
    cases meaning
    have only : ∀ g, g ∈ frame.fields.filter (·.answersTo head) ↔ g = f := fun g => by rw [single, mem_singleton]
    exact .inl ⟨(mem_filter.mp ((only f).mpr rfl)).1, fun g member answers =>
      (only g).mp (mem_filter.mpr ⟨member, answers⟩)⟩
  · cases meaning

/-- Columns that answer to the same names are found in the same frame. -/
theorem mem_of_resolve (meaning : resolve head (frame :: s) = .ok (some f)) (member : g ∈ frame.fields)
    (relation : g.relationName = f.relationName) (name : g.name = f.name) : f ∈ frame.fields := by
  have answers := (Field.answersTo_alike relation name head).trans (resolve_eq_some meaning).1
  rcases resolve_cons_cases meaning with ⟨here, _⟩ | ⟨none, _⟩
  · exact here
  · exact absurd answers (none g member)

theorem eq_of_resolve {head' : DottedName} (first : s.resolve head = .ok (some f))
    (second : s.resolve head' = .ok (some g)) (relation : g.relationName = f.relationName) (name : g.name = f.name) :
    g = f := by
  induction s with
  | nil => cases first
  | cons frame s ih =>
    have answers := (Field.answersTo_alike relation name head).trans (resolve_eq_some first).1
    have answers' := (Field.answersTo_alike relation.symm name.symm head').trans (resolve_eq_some second).1
    rcases resolve_cons_cases first with ⟨here, only⟩ | ⟨none, outside⟩
    · rcases resolve_cons_cases second with ⟨here', _⟩ | ⟨none', _⟩
      · exact only g here' answers
      · exact absurd answers' (none' f here)
    · rcases resolve_cons_cases second with ⟨here', _⟩ | ⟨_, outside'⟩
      · exact absurd answers (none g here')
      · exact ih outside outside'

theorem GoesThrough.reaches {names : List Path} (through : s.GoesThrough names f) : s.Reaches f := by
  obtain ⟨_, _, _, goes⟩ := through
  obtain ⟨_, found, relationship⟩ := reference_eq_through.mp goes
  obtain ⟨head, _, meaning⟩ := firstHead_eq_some found
  exact ⟨relationship, head, meaning⟩

theorem Reaches.outer (reaches : Reaches (frame :: s) f) (free : ¬ frame.Owns f.qualifier) : s.Reaches f := by
  obtain ⟨relationship, head, meaning⟩ := reaches
  rcases resolve_cons_cases meaning with ⟨here, _⟩ | ⟨_, outside⟩
  · exact absurd ⟨f, here, rfl⟩ free
  · exact ⟨relationship, head, outside⟩

/-- No relation is called like one with a relationship column and an underscore behind it, and two relations with the
same last name have the same full name. -/
def Separate (s : Scope) (names : List String) : Prop :=
  ∀ frame ∈ s, ∀ f ∈ frame.fields, f.isRelationship = true →
    (∀ name ∈ names, ¬ f.qualifier.toList ++ ['_'] <+: name.toList) ∧ ∀ frame' ∈ s, ∀ g ∈ frame'.fields, f.Apart g
  deriving Decidable

theorem joinLabel_toList (f : Field) : f.joinLabel.toList = (f.qualifier.toList ++ ['_']) ++ f.name.toList := by
  simp [Field.joinLabel]

theorem Separate.label_free {names : List String} (separate : s.Separate names) (reaches : s.Reaches f) :
    f.joinLabel ∉ names := by
  obtain ⟨relationship, _, meaning⟩ := reaches
  obtain ⟨_, frame, member, inFrame⟩ := resolve_eq_some meaning
  intro taken
  exact (separate frame member f inFrame relationship).1 _ taken (joinLabel_toList f ▸ prefix_append _ _)

theorem Separate.label_injective {names : List String} (separate : s.Separate names) (first : s.Reaches f)
    (second : s.Reaches g) (same : g.joinLabel = f.joinLabel) : g = f := by
  obtain ⟨relationship, _, meaning⟩ := first
  obtain ⟨relationship', _, meaning'⟩ := second
  obtain ⟨_, frame, member, inFrame⟩ := resolve_eq_some meaning
  obtain ⟨_, frame', member', inFrame'⟩ := resolve_eq_some meaning'
  have ahead := (separate frame member f inFrame relationship).2 frame' member' g inFrame'
  have behind := (separate frame' member' g inFrame' relationship').2 frame member f inFrame
  have texts := congrArg String.toList same
  rw [joinLabel_toList, joinLabel_toList] at texts
  have qualifiers : g.qualifier.toList ++ ['_'] = f.qualifier.toList ++ ['_'] := by
    have start : g.qualifier.toList ++ ['_'] <+: (f.qualifier.toList ++ ['_']) ++ f.name.toList :=
      texts ▸ prefix_append _ _
    rcases prefix_or_prefix_of_prefix start (prefix_append _ _) with shorter | longer
    · exact (prefix_concat_iff.mp shorter).resolve_right behind.1
    · exact ((prefix_concat_iff.mp longer).resolve_right ahead.1).symm
  rw [qualifiers, append_cancel_left_eq] at texts
  refine eq_of_resolve meaning meaning' (ahead.2 ?_) (String.toList_injective texts)
  exact String.toList_injective (append_cancel_right qualifiers)

end Scope

end Reaching

namespace Context

variable {c : Context}

section Reaching

variable {uses : Scope → List Path → Field → Prop} (through : ∀ s names f, uses s names f → s.Reaches f)

include through

theorem Escapes.reaches {parent : Scope} {q : Query} {f : Field} (escapes : c.Escapes uses parent q f) :
    parent.Reaches f := by
  induction escapes with
  | found _ used free => exact (through _ _ _ used).outer free
  | nested _ _ _ free ih => exact ih.outer free
  | operand _ _ ih => exact ih
  | entry _ _ ih => exact ih

theorem Used.reaches {s : Scope} {a : Clauses} {f : Field} (used : c.Used uses s a f) : s.Reaches f := by
  rcases used with here | ⟨_, _, escapes⟩
  · exact through _ _ _ here
  · exact escapes.reaches through

end Reaching

/-- A relationship column can be told by what its relation is called: a relation of the FROM clause that is called so
hides every other one, and the FROM item of the column alone has a relation called so. -/
def Discerned (c : Context) (source : List (FromItem Query)) (f : Field) : Prop :=
  (∀ g ∈ c.sourceFields source, g.qualifier = f.qualifier →
    ∃ g' ∈ c.sourceFields source, g'.relationName = f.relationName ∧ g'.name = f.name) ∧
  (source.length = 1 ∨ ∀ item ∈ source, f.qualifier ∈ relationNames item ↔ f ∈ c.itemFields item)
  deriving Decidable

/-- Every FROM item gets joins for relationship columns that the scope finds and that are used in the SELECT. If such a
column can be told, its relation is in that FROM item. -/
def PlacedAtOwners (c : Context) (related : Scope → Query → Query → Prop) (s : Scope) (_ : List (FromItem Query))
    (_ : List RelatedJoin) (a a' : Clauses) : Prop :=
  Forall₂ (fun item item' => ∃ kept added, item.Over (related []) kept ∧ item' = kept.plus added ∧
    ∀ j ∈ added, ∃ f, j.Answers c.layer f ∧ c.Used Scope.GoesThrough s a f ∧ s.Reaches f ∧
      (c.Discerned a.select.source f → f ∈ c.itemFields item)) a.select.source a'.select.source

/-- The joins that relationships add are at home. -/
theorem compileRelationships_placed {q q' : Query} (compiled : c.compileRelationships q = .ok q') :
    c.JoinedAs (.dereferencing c.layer) c.PlacedAtOwners q q' := by
  refine compileJoins_as (dereferencing_describes c.layer)
    (fun related parent kept joins a a' joined => ?_) q q' compiled
  have listed := forall₂_of_mem joined.items fun item member _ outlined => And.intro member outlined
  unfold PlacedAtOwners
  rw [joined.source]
  refine forall₂_compose ?_ listed (placeJoins_receives joins kept)
  rintro item item' _ ⟨inSource, outlined⟩ ⟨added, rfl, each⟩
  refine ⟨item', added, outlined, rfl, fun j member => ?_⟩
  obtain ⟨found, _, owner⟩ := each j member
  obtain ⟨f, ⟨used, g, own, same⟩, answers⟩ := joined.collects.sound j found
  have reaches := used.reaches fun _ _ _ => Scope.GoesThrough.reaches
  refine ⟨f, answers, used, reaches, fun ⟨nearest, told⟩ => ?_⟩
  obtain ⟨_, head, meaning⟩ := reaches
  obtain ⟨g', own', relation, name⟩ := nearest g own same
  obtain ⟨home, atHome, fields⟩ := mem_flatMap.mp (Scope.mem_of_resolve meaning own' relation name)
  rcases told with single | told
  · obtain ⟨only, source⟩ := length_eq_one_iff.mp single
    rw [source, mem_singleton] at inSource atHome
    rwa [inSource, ← atHome]
  · obtain ⟨home', inKept, homeOver⟩ := forall₂_exists joined.items home atHome
    refine (told item inSource).mp ?_
    rw [← outlined.relationNames, ← answers.names.1]
    refine owner (mem_flatMap.mpr ⟨home', inKept, ?_⟩)
    rw [homeOver.relationNames, answers.names.1]
    exact (told home atHome).mpr fields

/-- The second FROM item gets the join: the album is there. -/
theorem band_joined_to_album : ∃ q q', readQuery "SELECT band.name FROM raw_t, Album" = .ok q ∧
    sampleContext.compileRelationships q = .ok q' ∧ (joinCounts q' = [[0, 1]] ∧ ∀ a ∈ q.body.selects q.orderBy,
      ∀ f ∈ sampleContext.sourceFields a.select.source, sampleContext.Discerned a.select.source f) ∧
    sampleContext.JoinedAs (.dereferencing sampleContext.layer) sampleContext.PlacedAtOwners q q' :=
  sample_run (by decide +kernel) fun _ _ compiled _ => compileRelationships_placed compiled

/-- In a scope that is separate from the names in the FROM clause, the joins of a SELECT have names of their own, the
columns that its names go through are surely used, and a column of its own relations that is surely used has its
join. -/
def TellsJoins (c : Context) (_ : Scope → Query → Query → Prop) (s : Scope) (_ : List (FromItem Query))
    (_ : List RelatedJoin) (a a' : Clauses) : Prop :=
  ∀ names, a.select.source.flatMap relationNames ⊆ names → s.Separate names →
    (∀ f g, c.Used Scope.GoesThrough s a f → c.Used Scope.GoesThrough s a g → g.joinLabel = f.joinLabel → g = f) ∧
    (∀ f, c.Used Scope.GoesThrough s a f → f.joinLabel ∉ names) ∧
    (∀ f, s.GoesThrough (a.names .written) f → (JoinRule.dereferencing c.layer).sure s (a.names .written) f) ∧
    ∀ f, c.Used (JoinRule.dereferencing c.layer).sure s a f → (c.frame a).Owns f.qualifier →
      ∃ j : RelatedJoin, j.Answers c.layer f ∧ ∃ item ∈ a'.select.source, j.toJoin ∈ item.joins

/-- Every dereference reads the join for its own column. -/
theorem compileRelationships_told {q q' : Query} (compiled : c.compileRelationships q = .ok q') :
    c.JoinedAs (.dereferencing c.layer) c.TellsJoins q q' := by
  refine compileJoins_as (dereferencing_describes c.layer)
    (fun related parent kept joins a a' joined => ?_) q q' compiled
  intro names all separate
  have reach : ∀ {f}, c.Used Scope.GoesThrough (c.frame a :: parent) a f → Scope.Reaches (c.frame a :: parent) f :=
    fun used => used.reaches fun _ _ _ => Scope.GoesThrough.reaches
  refine ⟨fun f g first second => separate.label_injective (reach first) (reach second),
    fun f used => separate.label_free (reach used),
    fun f through => ⟨through, fun g other => separate.label_injective through.reaches other.reaches⟩,
    fun f used owns => ?_⟩
  have reaches := used.reaches fun _ _ _ sure => sure.1.reaches
  obtain ⟨j, member, answers⟩ := joined.collects.complete f ⟨used, owns⟩
  rw [joined.source]
  refine ⟨j, answers, toJoin_mem_placeJoins ?_ member ?_ fun j' member' label => ?_⟩
  · rintro rfl
    obtain ⟨g, own, _⟩ := owns
    simp [frame, sourceFields, forall₂_nil_right_iff.mp joined.items] at own
  · rw [flatMap_eq_of_forall₂ (joined.items.imp fun _ _ h => h.relationNames), answers.names.2]
    exact fun taken => separate.label_free reaches (all taken)
  · obtain ⟨g, ⟨used', _⟩, answers'⟩ := joined.collects.sound j' member'
    rw [answers.names.2, answers'.names.2] at label
    cases separate.label_injective reaches (reach used') label
    cases answers.asked.symm.trans answers'.asked
    rfl

/-- Two albums get a join each. -/
theorem bands_of_two_albums : ∃ q q', readQuery "SELECT a.band.name, b.band.name FROM Album a, Album b" = .ok q ∧
    sampleContext.compileRelationships q = .ok q' ∧ (joinCounts q' = [[1, 1]] ∧ ∀ a ∈ q.body.selects q.orderBy,
      Scope.Separate [sampleContext.frame a] (a.select.source.flatMap relationNames)) ∧
    sampleContext.JoinedAs (.dereferencing sampleContext.layer) sampleContext.TellsJoins q q' :=
  sample_run (by decide +kernel) fun _ _ compiled _ => compileRelationships_told compiled

end Context

end SemanticLayer
