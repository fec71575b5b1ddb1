import SemanticLayer.Compile.GroupKeys
import SemanticLayer.Manifest.Sample
import SemanticLayer.Proofs.Judgement

/-! # Group keys are expanded in place

A group key that means a relationship gets the key of the related model before it. All other group keys stay,
and the joins come in the order of the keys that ask for them.
-/

namespace SemanticLayer

open Sql
open Judgement (returns returns_bind)

variable {l : Layer} {items : List (SelectItem Query)} {s : Scope}

/-- What a group key stands for: a number for the output column at its position, anything else for itself. -/
inductive Designates (items : List (SelectItem Query)) : Expr Query → Expr Query → Prop
  | itself {e} : (∀ digits long, e ≠ .literal (.number digits long)) → Designates items e e
  | position {digits long n e} : Number.readWord? digits = some (n + 1) →
    (items[n]? = some (.expr e) ∨ ∃ label, items[n]? = some (.aliased e label)) →
    Designates items (.literal (.number digits long)) e

/-- A group key means a field. -/
def Denotes (items : List (SelectItem Query)) (s : Scope) (e : Expr Query) (f : Field) : Prop :=
  ∃ named name, Designates items e named ∧ columnName? named = some name ∧ s.resolve name = .ok (some f)

/-- The group keys with the keys of related models put in, and the joins that these need. -/
inductive KeysExpanded (l : Layer) (items : List (SelectItem Query)) (s : Scope) :
    List (Expr Query) → List (Expr Query) → List RelatedJoin → Prop
  | nil : KeysExpanded l items s [] [] []
  | key {e f j m key keys keys' joins} : Denotes items s e f → f.isRelationship = true →
    RelatedJoin.ofField l f = .ok j → l.model? j.target = some m → m.primaryKey = some key →
    KeysExpanded l items s keys keys' joins →
    KeysExpanded l items s (e :: keys) (.path [.ofName j.label, .ofName key] :: e :: keys') (j :: joins)
  | other {e keys keys' joins} : (∀ f, Denotes items s e f → f.isRelationship = false) →
    KeysExpanded l items s keys keys' joins → KeysExpanded l items s (e :: keys) (e :: keys') joins

theorem itemAt_eq_some {digits : String} {e : Expr Query} : itemAt items digits = some e ↔
    ∃ n, Number.readWord? digits = some (n + 1) ∧
      (items[n]? = some (.expr e) ∨ ∃ label, items[n]? = some (.aliased e label)) := by
  unfold itemAt
  split
  · simp_all
  · simp_all
  · rename_i n read
    simp only [read, Option.some.injEq]
    split <;> simp_all

theorem relationshipKey_eq (items : List (SelectItem Query)) (s : Scope) (e : Expr Query) : ∃ named : Option (Expr Query),
    (∀ e', named = some e' ↔ Designates items e e') ∧ relationshipKey items s e = match named.bind columnName? with
      | none => .ok none
      | some name => (·.filter Field.isRelationship) <$> s.resolve name := by
  by_cases number : ∃ digits long, e = .literal (.number digits long)
  · obtain ⟨digits, long, rfl⟩ := number
    refine ⟨itemAt items digits, fun e' => itemAt_eq_some.trans ⟨?_, ?_⟩, rfl⟩
    · rintro ⟨n, read, item⟩
      exact .position read item
    · rintro (⟨other⟩ | ⟨read, item⟩)
      · exact absurd rfl (other _ _)
      · exact ⟨_, read, item⟩
  · have other : ∀ digits long, e ≠ .literal (.number digits long) := fun _ _ same => number ⟨_, _, same⟩
    refine ⟨some e, fun e' => ⟨?_, ?_⟩, ?_⟩
    · rintro ⟨⟩
      exact .itself other
    · rintro (⟨_⟩ | ⟨_, _⟩)
      · rfl
      · exact absurd rfl (other _ _)
    · unfold relationshipKey
      split
      · exact absurd rfl (other _ _)
      · rfl

/-- A group key that means a relationship is found to do so, and no other key is. -/
theorem relationshipKey_ok {e : Expr Query} {found : Option Field} (ok : relationshipKey items s e = .ok found)
    (f : Field) : found = some f ↔ Denotes items s e f ∧ f.isRelationship = true := by
  obtain ⟨named, designates, same⟩ := relationshipKey_eq items s e
  have denotes : Denotes items s e f ↔ ∃ name, named.bind columnName? = some name ∧ s.resolve name = .ok (some f) := by
    simp only [Denotes, ← designates, Option.bind_eq_some_iff]
    grind
  rw [same] at ok
  split at ok
  · rename_i nameless
    cases ok
    simp [denotes, nameless]
  · rename_i name means
    cases resolved : s.resolve name with
    | error =>
      rw [resolved] at ok
      cases ok
    | ok g =>
      rw [resolved] at ok
      cases ok
      rw [denotes, Option.filter_eq_some_iff]
      simp [means, resolved]

theorem note_ok {found : RelatedKeys} {e : Expr Query} {n : Nat} : returns.holds (found.note l items s (e, n)) fun r =>
    (r = found ∧ ∀ f, Denotes items s e f → f.isRelationship = false) ∨ ∃ f j m key, Denotes items s e f ∧
      f.isRelationship = true ∧ RelatedJoin.ofField l f = .ok j ∧ l.model? j.target = some m ∧ m.primaryKey = some key ∧
      r = ⟨found.keys ++ [(n, .path [.ofName j.label, .ofName key])], found.joins ++ [j]⟩ := by
  refine returns_bind (fun _ read => relationshipKey_ok read) fun field means => ?_
  cases field with
  | none =>
    refine returns.pure (.inl ⟨rfl, fun f denotes => Bool.eq_false_iff.mpr fun related => ?_⟩)
    exact nomatch (means f).mpr ⟨denotes, related⟩
  | some f =>
    obtain ⟨denotes, related⟩ := (means f).mp rfl
    refine returns_bind (fun _ join => join) fun j join => ?_
    split
    · rename_i m model
      split
      · rename_i key primary
        exact returns.pure (.inr ⟨f, j, m, key, denotes, related, join, model, primary, rfl⟩)
      · exact nofun
    · exact nofun

theorem insertInto_cons {index : Nat} {key : Expr Query} {found : List (Nat × Expr Query)} {joins joins'} {keys} :
    RelatedKeys.insertInto ⟨(index, key) :: found, joins⟩ keys =
      (RelatedKeys.insertInto ⟨found, joins'⟩ keys).insertIdx index key := by
  simp [RelatedKeys.insertInto]

theorem insertIdx_length_append {α : Type} (key : α) (rest : List α) :
    ∀ passed : List α, (passed ++ rest).insertIdx passed.length key = passed ++ key :: rest
  | [] => List.insertIdx_zero
  | e :: passed => by
    rw [List.cons_append, List.length_cons, List.insertIdx_succ_cons, insertIdx_length_append key rest passed, List.cons_append]

/-- Noting the group keys from an index on adds the keys and joins of those that mean a relationship. Put into the whole
    list of group keys, the keys stand each before its own, whatever stands before the index. -/
theorem foldlM_note {keys : List (Expr Query)} : ∀ {n : Nat} {found : RelatedKeys},
    returns.holds ((keys.zipIdx n).foldlM (RelatedKeys.note l items s) found) fun r => ∃ later joins keys',
      r = ⟨found.keys ++ later, found.joins ++ joins⟩ ∧ KeysExpanded l items s keys keys' joins ∧
      ∀ passed : List (Expr Query), passed.length = n → RelatedKeys.insertInto ⟨later, joins⟩ (passed ++ keys) = passed ++ keys' := by
  induction keys with
  | nil =>
    intro n found
    exact returns.pure ⟨[], [], [], by simp, .nil, fun _ _ => rfl⟩
  | cons e keys ih =>
    intro n found
    rw [List.zipIdx_cons, List.foldlM_cons]
    refine returns_bind note_ok fun noted here => ?_
    rcases here with ⟨rfl, plain⟩ | ⟨f, j, m, key, denotes, related, join, model, primary, rfl⟩
    · refine returns.mono ih ?_
      rintro r ⟨later, joins, keys', rfl, expanded, put⟩
      refine ⟨later, joins, e :: keys', rfl, .other plain expanded, fun passed length => ?_⟩
      have behind := put (passed ++ [e]) (by simp [length])
      simpa using behind
    · refine returns.mono ih ?_
      rintro r ⟨later, joins, keys', rfl, expanded, put⟩
      refine ⟨(n, .path [.ofName j.label, .ofName key]) :: later, j :: joins, _, by simp,
        .key denotes related join model primary expanded, fun passed length => ?_⟩
      have behind := put (passed ++ [e]) (by simp [length])
      rw [List.append_assoc, List.append_assoc, List.singleton_append, List.singleton_append] at behind
      rw [insertInto_cons, behind, ← length, insertIdx_length_append]

theorem groupKeyJoins_expands (l : Layer) (a : Clauses) (s : Scope) : returns.holds (groupKeyJoins l a s) fun r =>
    (∃ modifiers, a.select.groupBy = .all modifiers ∧ r = (a, [])) ∨ ∃ keys modifiers keys',
      a.select.groupBy = .exprs keys modifiers ∧ KeysExpanded l a.select.items s keys keys' r.2 ∧
        r.1 = { a with select := { a.select with groupBy := .exprs keys' modifiers } } := by
  unfold groupKeyJoins
  split
  · rename_i modifiers grouped
    exact returns.pure (.inl ⟨modifiers, grouped, rfl⟩)
  · rename_i keys modifiers grouped
    refine returns_bind foldlM_note ?_
    rintro _ ⟨later, joins, keys', rfl, expanded, put⟩
    refine returns.pure (.inr ⟨keys, modifiers, keys', grouped, by simpa using expanded, ?_⟩)
    have inserted := put [] rfl
    rw [List.nil_append] at inserted
    simp [inserted]

/-- Grouping keeps all group keys in order, puts the key of the related model before each key that means a
    relationship, and asks for the joins of these keys in order. -/
theorem group_keys_expanded {l : Layer} {a b : Clauses} {s : Scope} {joins : List RelatedJoin}
    (found : groupKeyJoins l a s = .ok (b, joins)) :
    (∀ modifiers, a.select.groupBy = .all modifiers → b = a ∧ joins = []) ∧
    ∀ keys modifiers, a.select.groupBy = .exprs keys modifiers → ∃ keys',
      KeysExpanded l a.select.items s keys keys' joins ∧
        b = { a with select := { a.select with groupBy := .exprs keys' modifiers } } := by
  rcases groupKeyJoins_expands l a s _ found with ⟨modifiers, grouped, same⟩ | ⟨keys, modifiers, keys', grouped, done, same⟩
  · cases same
    refine ⟨fun _ _ => ⟨rfl, rfl⟩, fun keys modifiers exprs => ?_⟩
    rw [grouped] at exprs
    cases exprs
  · refine ⟨fun _ all => ?_, fun _ _ exprs => ?_⟩
    · rw [grouped] at all
      cases all
    · rw [grouped] at exprs
      cases exprs
      exact ⟨keys', done, same⟩

def Context.sampleLayer : Layer := ⟨Manifest.sample, by decide +kernel⟩

/-- What the joins are called that the group keys of a single SELECT ask for. -/
def groupLabels (l : Layer) (q : Query) : Option (List String) :=
  match q.body with
  | .select select => match select.groupBy with
    | .exprs _ _ => (Context.sourceScope ⟨.ofLayer l, l⟩ select []).toOption.bind fun s =>
      (groupKeyJoins l ⟨select, q.orderBy⟩ s).toOption.map fun r => r.2.map RelatedJoin.label
    | _ => none
  | _ => none

/-- Albums are grouped by a column and by the band in the first place. -/
theorem band_key_expanded : ∃ q select s b joins keys modifiers keys',
    readQuery "SELECT band, name, count(1) FROM Album GROUP BY name, 1" = .ok q ∧ q.body = .select select ∧
    Context.sourceScope ⟨.ofLayer Context.sampleLayer, Context.sampleLayer⟩ select [] = .ok s ∧
    groupKeyJoins Context.sampleLayer ⟨select, q.orderBy⟩ s = .ok (b, joins) ∧
    select.groupBy = .exprs keys modifiers ∧ KeysExpanded Context.sampleLayer select.items s keys keys' joins ∧
    b.select.groupBy = .exprs keys' modifiers ∧ joins.map (·.label) = ["Album_band"] := by
  have run : (readQuery "SELECT band, name, count(1) FROM Album GROUP BY name, 1").toOption.bind
      (groupLabels Context.sampleLayer) = some ["Album_band"] := by
    decide +kernel
  obtain ⟨q, read, rest⟩ := Option.bind_eq_some_iff.mp run
  unfold groupLabels at rest
  split at rest
  · rename_i select body
    split at rest
    · rename_i keys modifiers grouped
      obtain ⟨s, scope, rest⟩ := Option.bind_eq_some_iff.mp rest
      obtain ⟨⟨b, joins⟩, found, labels⟩ := Option.map_eq_some_iff.mp rest
      rw [toOption_eq_some_iff] at read scope found
      obtain ⟨keys', done, rfl⟩ := (group_keys_expanded found).2 keys modifiers grouped
      exact ⟨q, select, s, _, joins, keys, modifiers, keys', read, body, scope, found, grouped, done, rfl, labels⟩
    · cases rest
  · cases rest

end SemanticLayer
