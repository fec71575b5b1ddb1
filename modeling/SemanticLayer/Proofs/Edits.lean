import SemanticLayer.Proofs.Findings
import SemanticLayer.Proofs.Walks

/-! # What edits do to reading

Writing objects by their plain names changes how they are mentioned and not what the mentions mean.
Naming functions for a backend changes no mention.
-/

namespace SemanticLayer

open Sql

def Sql.Mention.mapName (f : Path → Path) : Mention → Mention
  | .table name => .table (f name)
  | .call name args => .call (f name) args

def Sql.Change.renaming (f : Path → Path) : Change where
  kept mention mention' := mention' = mention.mapName f
  gone _ := False
  new _ := False

namespace Context

variable (c : Context) {reach : Reach} {name : Path} {bound : List String} {finding : Finding} {mention : Mention}

/-- A name without the catalog and schema of the layer, if it is the name of an object. -/
def stripName (name : Path) : Path :=
  if name.length ≤ 1 then name
  else
    match c.session.tableName name with
    | .error _ => name
    | .ok table => if (c.kind? table).isSome then [.ofName table.table] else name

theorem stripRelation_table (name : Path) (args : Option (List (Expr Query))) (ordinality : Bool)
    (label : Option Alias) (hints : Expr Query) : c.stripRelation (.table name args ordinality label hints) =
      .table (c.stripName name) args ordinality label hints := by
  unfold stripRelation stripName
  grind

theorem strip_alike (reach : Reach) (q : Query) :
    q.Alike (.renaming c.stripName) reach (Query.Follows (.renaming c.stripName) reach) (c.strip q) := by
  refine Query.edit_alike (J := Judgement.id) (e := { Edit.keep Id with relation := fun r => c.stripRelation r })
    (fun _ => rfl) (fun _ => rfl) ⟨?_, ?_⟩ q
  · intro r other
    cases r with
    | table => cases other
    | derived | nested | unnest | pivot | other => rfl
  · intro r table
    cases r with
    | table name args ordinality label hints =>
      change Relation.Replaces _ _ _ (c.stripRelation (.table name args ordinality label hints))
      rw [stripRelation_table]
      cases args with
      | none | some => exact ⟨.single rfl, fun x member => .inl member, fun x member => .inl member⟩
    | derived | nested | unnest | pivot | other => cases table

theorem stripName_rollup (rolled : Rollup.isName name = true) : c.stripName name = name := by
  have short : name.length ≤ 1 := by
    unfold Rollup.isName at rolled
    split at rolled
    · exact Nat.le_refl 1
    · cases rolled
  simp [stripName, short]

/-- A name that is the name of an object is written plainly, and all other names are kept. -/
theorem stripName_cases (name : Path) : c.stripName name = name ∨ ∃ table kind,
    c.session.tableName name = .ok table ∧ c.kind? table = some kind ∧ c.stripName name = [.ofName table.table] := by
  unfold stripName
  split
  · exact .inl rfl
  · cases named : c.session.tableName name with
    | error => exact .inl rfl
    | ok table =>
      cases object : c.kind? table with
      | none => exact .inl (by simp [object])
      | some kind => exact .inr ⟨table, kind, rfl, object, by simp [object]⟩

theorem tableName_object {c : Context} (own : c.session = .ofLayer c.layer) {table : TableName} {kind : ObjectKind}
    (object : c.kind? table = some kind) : c.session.tableName [.ofName table.table] = .ok table := by
  rw [tableName_plain own, Ident.ofName_value, qualified_of_kind object]

theorem means_table_stripName (own : c.session = .ofLayer c.layer) :
    c.Means bound (.table (c.stripName name)) finding ↔ c.Means bound (.table name) finding := by
  rcases c.stripName_cases name with same | ⟨table, kind, named, object, plain⟩
  · rw [same]
  · have before : c.Means bound (.table name) (.object kind table.table) := .object named object
    have after : c.Means bound (.table (c.stripName name)) (.object kind table.table) := by
      rw [plain]
      exact .object (tableName_object own object) object
    exact ⟨fun means => after.unique means ▸ before, fun means => before.unique means ▸ after⟩

theorem means_stripName (own : c.session = .ofLayer c.layer)
    (means : c.Means bound mention finding) : c.Means bound (mention.mapName c.stripName) finding := by
  cases mention with
  | table name => exact (c.means_table_stripName own).mpr means
  | call name args =>
    cases means with
    | rollup named rolled =>
      rw [Mention.mapName, c.stripName_rollup named]
      exact .rollup named rolled

/-- If a mention means an object, it is a plain name. -/
def IsPlain (mention : Mention) : Prop :=
  ∀ bound kind name, c.Means bound mention (.object kind name) → ∃ part, mention = .table [part]

theorem stripName_plain_or_other (name : Path) : (∃ part, c.stripName name = [part]) ∨
    c.stripName name = name ∧ ∀ table, c.session.tableName name = .ok table → c.kind? table = none := by
  unfold stripName
  split
  · rename_i short
    match name, short with
    | [], _ => exact .inr ⟨rfl, fun _ named => nomatch named⟩
    | [part], _ => exact .inl ⟨part, rfl⟩
  · cases full : c.session.tableName name with
    | error => exact .inr ⟨rfl, fun _ named => nomatch named⟩
    | ok table =>
      by_cases object : (c.kind? table).isSome = true
      · exact .inl ⟨.ofName table.table, by simp [object]⟩
      · refine .inr ⟨by simp [object], ?_⟩
        rintro _ ⟨⟩
        simpa using object

/-- After stripping, objects are mentioned by plain names only. -/
theorem strip_plain {q : Query} (mentions : (c.strip q).Mentions reach mention) : c.IsPlain mention := by
  rcases (c.strip_alike reach q).follows.back mentions with ⟨mention, _, rfl⟩ | ⟨⟨⟩⟩
  intro bound kind object means
  cases mention with
  | call => cases means
  | table name =>
    rw [Mention.mapName] at means ⊢
    rcases c.stripName_plain_or_other name with ⟨part, plain⟩ | ⟨same, other⟩
    · exact ⟨part, by rw [plain]⟩
    · rw [same] at means
      cases means with
      | object named object =>
        rw [other _ named] at object
        cases object

end Context

theorem Backend.renameFunctions_alike (b : Backend) (gone new : Mention → Prop) (reach : Reach) (q : Query) :
    q.Alike (.upTo gone new) reach (Query.Follows (.upTo gone new) reach) (b.renameFunctions q) :=
  Query.edit_alike (J := Judgement.id) (e := { Edit.keep Id with call := b.renameFunction })
    (fun _ => rfl) (fun _ => rfl) ⟨fun _ _ => rfl, fun _ _ => ⟨Change.mentions_refl _, fun _ member => .inl member,
      fun _ member => .inl member⟩⟩ q

end SemanticLayer
