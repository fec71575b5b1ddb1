import SemanticLayer.Proofs.Judgement
import SemanticLayer.Proofs.Reads
import SemanticLayer.Compile.Functions
import SemanticLayer.Compile.Models

/-! # What rewriting does to reading

A change says how the mentions of a query and of its rewritten form correspond. It is shown for the
parts of a query, and the walks of the compiler are shown to make one, whatever monad they run in.
-/

namespace SemanticLayer

open List

/-- Two lists correspond, up to what is gone from the first and what is new in the second. -/
structure Tracks {α β : Type} (kept : α → β → Prop) (gone : α → Prop) (new : β → Prop)
    (l : List α) (l' : List β) : Prop where
  forth : ∀ a ∈ l, (∃ b ∈ l', kept a b) ∨ gone a
  back : ∀ b ∈ l', (∃ a ∈ l, kept a b) ∨ new b

namespace Tracks

variable {α β : Type} {kept : α → β → Prop} {gone : α → Prop} {new : β → Prop} {l : List α} {l' : List β}

theorem nil : Tracks kept gone new [] [] := ⟨by simp, by simp⟩

theorem single {a : α} {b : β} (h : kept a b) : Tracks kept gone new [a] [b] :=
  ⟨by simp [h], by simp [h]⟩

/-- Seen from the second list, what is gone and what is new change places. -/
theorem flip (h : Tracks kept gone new l l') : Tracks (fun b a => kept a b) new gone l' l := ⟨h.back, h.forth⟩

theorem append {l₁ l₂ : List α} {l₁' l₂' : List β} (first : Tracks kept gone new l₁ l₁')
    (second : Tracks kept gone new l₂ l₂') : Tracks kept gone new (l₁ ++ l₂) (l₁' ++ l₂') := by
  constructor
  · intro a member
    rcases mem_append.mp member with member | member
    · exact (first.forth a member).imp_left fun ⟨b, hb, h⟩ => ⟨b, mem_append_left _ hb, h⟩
    · exact (second.forth a member).imp_left fun ⟨b, hb, h⟩ => ⟨b, mem_append_right _ hb, h⟩
  · intro b member
    rcases mem_append.mp member with member | member
    · exact (first.back b member).imp_left fun ⟨a, ha, h⟩ => ⟨a, mem_append_left _ ha, h⟩
    · exact (second.back b member).imp_left fun ⟨a, ha, h⟩ => ⟨a, mem_append_right _ ha, h⟩

theorem of_pairs (h : Forall₂ kept l l') : Tracks kept gone new l l' := by
  induction h with
  | nil => exact nil
  | cons first _ ih => exact (single first).append ih

theorem comp {γ : Type} {kept' : β → γ → Prop} {kept'' : α → γ → Prop} {gone' : β → Prop} {gone'' : α → Prop}
    {new' new'' : γ → Prop} {l'' : List γ} (first : Tracks kept gone new l l') (second : Tracks kept' gone' new' l' l'')
    (compose : ∀ a ∈ l, ∀ b c, kept a b → kept' b c → kept'' a c) (lost : ∀ a, gone a → gone'' a)
    (later : ∀ a b, kept a b → gone' b → gone'' a) (earlier : ∀ b c, new b → kept' b c → new'' c)
    (added : ∀ c, new' c → new'' c) : Tracks kept'' gone'' new'' l l'' := by
  constructor
  · intro a member
    rcases first.forth a member with ⟨b, member', here⟩ | gone
    · exact (second.forth b member').imp (fun ⟨c, member'', next⟩ => ⟨c, member'', compose a member b c here next⟩)
        (later a b here)
    · exact .inr (lost a gone)
  · intro c member''
    rcases second.back c member'' with ⟨b, member', next⟩ | new
    · exact (first.back b member').imp (fun ⟨a, member, here⟩ => ⟨a, member, compose a member b c here next⟩)
        fun new => earlier b c new next
    · exact .inr (added c new)

theorem flatMap {γ δ : Type} {f : γ → List α} {g : δ → List β} {l : List γ} {l' : List δ}
    (h : Forall₂ (fun c d => Tracks kept gone new (f c) (g d)) l l') :
    Tracks kept gone new (l.flatMap f) (l'.flatMap g) := by
  induction h with
  | nil => exact nil
  | cons first _ rest => exact first.append rest

theorem aside (reach : Sql.Reach) (h : Tracks kept gone new l l') :
    Tracks kept gone new (reach.aside l) (reach.aside l') := by
  cases reach with
  | visited => exact nil
  | written => exact h

theorem mono {kept' : α → β → Prop} (h : Tracks kept gone new l l')
    (weaker : ∀ a ∈ l, ∀ b, kept a b → kept' a b) : Tracks kept' gone new l l' := by
  constructor
  · exact fun a ha => (h.forth a ha).imp_left fun ⟨b, hb, hab⟩ => ⟨b, hb, weaker a ha b hab⟩
  · exact fun b hb => (h.back b hb).imp_left fun ⟨a, ha, hab⟩ => ⟨a, ha, weaker a ha b hab⟩

theorem refl {kept : α → α → Prop} {new : α → Prop} (l : List α) (h : ∀ a ∈ l, kept a a) : Tracks kept gone new l l :=
  ⟨fun a ha => .inl ⟨a, ha, h a ha⟩, fun a ha => .inl ⟨a, ha, h a ha⟩⟩

end Tracks

namespace Sql

variable {c : Change} {reach : Reach} {q q' : Query} {mention' : Mention}

/-- How the mentions of a rewritten query correspond to those of the query. -/
structure Change where
  kept : Mention → Mention → Prop
  gone : Mention → Prop
  new : Mention → Prop

namespace Change

variable (c : Change) (reach : Reach)

/-- Two lists of mentions correspond. -/
abbrev Mentions : List Mention → List Mention → Prop := Tracks c.kept c.gone c.new

/-- Two lists of queries correspond: they are related, all that is mentioned is gone, or all of it is
    new. -/
abbrev Queries (related : Query → Query → Prop) : List Query → List Query → Prop :=
  Tracks related (fun x => ∀ mention, x.Mentions reach mention → c.gone mention)
    fun x => ∀ mention, x.Mentions reach mention → c.new mention

end Change

/-- A query is rewritten by a change: at every place with its visible WITH names. -/
def Query.Follows (c : Change) (reach : Reach) (q q' : Query) : Prop :=
  ∀ outer bound, (∀ mention, q.Reads reach outer bound mention →
      (∃ mention', q'.Reads reach outer bound mention' ∧ c.kept mention mention') ∨ c.gone mention) ∧
    ∀ mention', q'.Reads reach outer bound mention' →
      (∃ mention, q.Reads reach outer bound mention ∧ c.kept mention mention') ∨ c.new mention'

theorem Query.Follows.forth (follows : q.Follows c reach q') {mention : Mention} (mentions : q.Mentions reach mention) :
    (∃ mention', q'.Mentions reach mention' ∧ c.kept mention mention') ∨ c.gone mention := by
  obtain ⟨bound, reads⟩ := mentions
  exact ((follows [] bound).1 mention reads).imp_left fun ⟨m, reads, kept⟩ => ⟨m, reads.mentions, kept⟩

theorem Query.Follows.back (follows : q.Follows c reach q') (mentions : q'.Mentions reach mention') :
    (∃ mention, q.Mentions reach mention ∧ c.kept mention mention') ∨ c.new mention' := by
  obtain ⟨bound, reads⟩ := mentions
  exact ((follows [] bound).2 mention' reads).imp_left fun ⟨m, reads, kept⟩ => ⟨m, reads.mentions, kept⟩

/-- The parts of two queries correspond, with nested queries related in a given way. -/
structure Query.Alike (c : Change) (reach : Reach) (related : Query → Query → Prop)
    (q q' : Query) : Prop where
  recursive : q'.recursive = q.recursive
  entries : Forall₂ (fun cte cte' => cte'.name = cte.name ∧ related cte.query cte'.query) q.ctes q'.ctes
  mentions : c.Mentions q.body.mentions q'.body.mentions
  inner : c.Queries reach related (q.inner reach) (q'.inner reach)

section Parts

variable {c : Change} {reach : Reach} {related : Query → Query → Prop} {q q' : Query}

private theorem forall₂_split {α β : Type} {R : α → β → Prop} {front back : List α} {a : α}
    {l' : List β} (h : Forall₂ R (front ++ a :: back) l') :
    ∃ front' a' back', l' = front' ++ a' :: back' ∧ Forall₂ R front front' ∧ R a a' := by
  induction front generalizing l' with
  | nil =>
    cases h with
    | cons first rest => exact ⟨[], _, _, rfl, .nil, first⟩
  | cons x front ih =>
    cases h with
    | cons first rest =>
      obtain ⟨front', a', back', rfl, pairs, here⟩ := ih rest
      exact ⟨_ :: front', a', back', rfl, .cons first pairs, here⟩

theorem forall₂_exists {α β : Type} {R : α → β → Prop} {l : List α} {l' : List β}
    (h : Forall₂ R l l') (a : α) (member : a ∈ l) : ∃ b ∈ l', R a b := by
  obtain ⟨front, back, rfl⟩ := append_of_mem member
  obtain ⟨front', b, back', rfl, _, here⟩ := forall₂_split h
  exact ⟨b, by simp, here⟩

private theorem map_nameOf_eq {P : Cte Query → Cte Query → Prop} {l l' : List (Cte Query)}
    (h : Forall₂ (fun cte cte' => cte'.name = cte.name ∧ P cte cte') l l') :
    l'.map With.nameOf = l.map With.nameOf := by
  induction h with
  | nil => rfl
  | cons first _ ih => simp only [map_cons, With.nameOf, first.1, ih]

theorem Query.Alike.names_eq (alike : q.Alike c reach related q') : With.names q' = With.names q :=
  map_nameOf_eq alike.entries

theorem Query.Alike.entry (alike : q.Alike c reach related q') {front back : List (Cte Query)}
    {cte : Cte Query} (split : q.ctes = front ++ cte :: back) : ∃ front' cte' back', q'.ctes = front' ++ cte' :: back' ∧
      q'.visibleTo front' cte' = q.visibleTo front cte ∧ related cte.query cte'.query := by
  have pairs := alike.entries
  rw [split] at pairs
  obtain ⟨front', cte', back', split', fronts, name, here⟩ := forall₂_split pairs
  refine ⟨front', cte', back', split', ?_, here⟩
  simp only [Query.visibleTo, alike.recursive, map_nameOf_eq fronts, With.nameOf, name]

theorem Query.Alike.flip (alike : q.Alike c reach related q') :
    q'.Alike ⟨fun m m' => c.kept m' m, c.new, c.gone⟩ reach (fun x x' => related x' x) q :=
  ⟨alike.recursive.symm, alike.entries.flip.imp fun _ _ h => ⟨h.1.symm, h.2⟩, alike.mentions.flip, alike.inner.flip⟩

/-- What a query reads is kept or gone if this holds of its parts. -/
theorem Query.Alike.reads (alike : q.Alike c reach related q') {outer bound : List String} {mention : Mention}
    (inside : ∀ x x', related x x' → ∀ outer bound mention, x.Reads reach outer bound mention →
      (∃ mention', x'.Reads reach outer bound mention' ∧ c.kept mention mention') ∨ c.gone mention)
    (reads : q.Reads reach outer bound mention) :
    (∃ mention', q'.Reads reach outer bound mention' ∧ c.kept mention mention') ∨ c.gone mention := by
  cases reads with
  | here member =>
    rcases alike.mentions.forth mention member with ⟨mention', member', kept⟩ | gone
    · rw [← alike.names_eq]
      exact .inl ⟨mention', .here member', kept⟩
    · exact .inr gone
  | nested member reads =>
    rcases alike.inner.forth _ member with ⟨x', member', follows⟩ | gone
    · rw [← alike.names_eq] at reads
      refine (inside _ _ follows _ _ mention reads).imp_left ?_
      exact fun ⟨mention', reads', kept⟩ => ⟨mention', .nested member' reads', kept⟩
    · exact .inr (gone mention reads.mentions)
  | entry split reads =>
    obtain ⟨front', cte', back', split', visible, follows⟩ := alike.entry split
    rw [← visible] at reads
    refine (inside _ _ follows _ _ mention reads).imp_left ?_
    exact fun ⟨mention', reads', kept⟩ => ⟨mention', .entry split' reads', kept⟩

theorem Query.Alike.follows (alike : q.Alike c reach (Query.Follows c reach) q') : q.Follows c reach q' :=
  fun _ _ => ⟨fun _ => alike.reads fun _ _ follows outer bound => (follows outer bound).1,
    fun _ => alike.flip.reads fun _ _ follows outer bound => (follows outer bound).2⟩

theorem Query.Alike.back (alike : q.Alike c reach (Query.Follows c reach) q') {p : String → Prop}
    (mentions : q'.MentionsIn p reach mention') :
    (∃ mention, q.MentionsIn p reach mention ∧ c.kept mention mention') ∨ c.new mention' := by
  rcases mentions with member | ⟨x', member', mentions⟩ | ⟨cte', member', named, mentions⟩
  · exact (alike.mentions.back mention' member).imp_left fun ⟨m, member, kept⟩ => ⟨m, .inl member, kept⟩
  · rcases alike.inner.back x' member' with ⟨x, member, follows⟩ | new
    · exact (follows.back mentions).imp_left fun ⟨m, mentions, kept⟩ =>
        ⟨m, .inr (.inl ⟨x, member, mentions⟩), kept⟩
    · exact .inr (new mention' mentions)
  · obtain ⟨cte, member, name, follows⟩ := forall₂_exists alike.entries.flip cte' member'
    rw [With.nameOf, name] at named
    exact (follows.back mentions).imp_left fun ⟨m, mentions, kept⟩ =>
      ⟨m, .inr (.inr ⟨cte, member, named, mentions⟩), kept⟩

end Parts

/-- The change under which mentions stay as they are. -/
def Change.upTo (gone new : Mention → Prop) : Change := ⟨Eq, gone, new⟩

section Exact

variable {gone new : Mention → Prop} {reach : Reach} {q q' q'' : Query}

theorem Query.Follows.refl (gone new : Mention → Prop) (reach : Reach) (q : Query) :
    q.Follows (.upTo gone new) reach q :=
  fun _ _ => ⟨fun mention reads => .inl ⟨mention, reads, rfl⟩, fun mention reads => .inl ⟨mention, reads, rfl⟩⟩

theorem Query.Follows.trans (first : q.Follows (.upTo gone new) reach q')
    (second : q'.Follows (.upTo gone new) reach q'') : q.Follows (.upTo gone new) reach q'' := by
  intro outer bound
  constructor
  · intro mention reads
    rcases (first outer bound).1 mention reads with ⟨_, between, rfl⟩ | lost
    · exact (second outer bound).1 _ between
    · exact .inr lost
  · intro mention reads
    rcases (second outer bound).2 mention reads with ⟨_, between, rfl⟩ | added
    · exact (first outer bound).2 _ between
    · exact .inr added

theorem Change.mentions_refl (l : List Mention) : (upTo gone new).Mentions l l :=
  .refl l fun _ _ => rfl

theorem Change.mentions_trans {l l' l'' : List Mention} (first : (upTo gone new).Mentions l l')
    (second : (upTo gone new).Mentions l' l'') : (upTo gone new).Mentions l l'' := by
  refine first.comp second (fun _ _ _ _ => .trans) (fun _ => id) ?_ ?_ fun _ => id
  · rintro _ _ rfl lost
    exact lost
  · rintro _ _ added rfl
    exact added

theorem Change.queries_refl (l : List Query) :
    (upTo gone new).Queries reach (Query.Follows (.upTo gone new) reach) l l :=
  .refl l fun x _ => .refl gone new reach x

theorem Change.queries_trans {l l' l'' : List Query}
    (first : (upTo gone new).Queries reach (Query.Follows (.upTo gone new) reach) l l')
    (second : (upTo gone new).Queries reach (Query.Follows (.upTo gone new) reach) l' l'') :
    (upTo gone new).Queries reach (Query.Follows (.upTo gone new) reach) l l'' := by
  refine first.comp second (fun _ _ _ _ => .trans) (fun _ => id) ?_ ?_ fun _ => id
  · intro x x' follows lost mention mentions
    obtain ⟨_, kept, rfl⟩ | gone := follows.forth mentions
    · exact lost _ kept
    · exact gone
  · intro x' x'' added follows mention mentions
    obtain ⟨_, kept, rfl⟩ | new := follows.back mentions
    · exact added _ kept
    · exact new

end Exact

end Sql

end SemanticLayer
