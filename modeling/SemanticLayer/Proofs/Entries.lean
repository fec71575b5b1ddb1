import SemanticLayer.Proofs.Judgement
import SemanticLayer.Proofs.Reads
import SemanticLayer.Compile.Metrics

/-! # Entries of WITH clauses

What adding, ordering and dropping entries does to a query. Adding keeps the entries that are there and
puts in new ones of other names, each with its base; ordering permutes; dropping keeps what is read.
-/

namespace SemanticLayer

open List

open Sql (Query Cte Mention Reach)

variable {name : String}

/-- The object that an object is built on: the base model of a model, the base object of a metric. -/
def Layer.base? (l : Layer) (name : String) : Option String :=
  match l.kind? name with
  | some .model => (l.model? name).bind Model.baseModel
  | _ => l.baseObject? name

theorem Layer.kind_of_model {l : Layer} {m : Model} (found : l.model? name = some m) : l.kind? name = some .model := by
  simp [Layer.kind?, found]

namespace With

variable {q q' : Query} {reach : Reach} {mention : Mention}

/-- Two queries that differ in their WITH clauses at most. -/
structure SameBody (q q' : Query) : Prop where
  body : q'.body = q.body
  orderBy : q'.orderBy = q.orderBy
  limit : q'.limit = q.limit
  trailer : q'.trailer = q.trailer

theorem SameBody.refl (q : Query) : SameBody q q := ⟨rfl, rfl, rfl, rfl⟩

theorem SameBody.symm (same : SameBody q q') : SameBody q' q :=
  ⟨same.body.symm, same.orderBy.symm, same.limit.symm, same.trailer.symm⟩

theorem SameBody.trans {q'' : Query} (first : SameBody q q') (second : SameBody q' q'') : SameBody q q'' :=
  ⟨second.body.trans first.body, second.orderBy.trans first.orderBy, second.limit.trans first.limit,
    second.trailer.trans first.trailer⟩

theorem SameBody.inner_eq (same : SameBody q q') (reach : Reach) : q'.inner reach = q.inner reach := by
  simp only [Query.inner, same.body, same.orderBy, same.limit, same.trailer]

/-- A query with further entries. -/
structure Added (l : Layer) (fits : String → Prop) (q q' : Query) : Prop where
  rest : SameBody q q'
  kept : ∀ cte ∈ q.ctes, cte ∈ q'.ctes
  new : ∀ cte ∈ q'.ctes, cte ∈ q.ctes ∨ nameOf cte ∉ names q ∧ fits (nameOf cte)
  based : ∀ name ∈ names q', name ∉ names q → ∀ base, l.base? name = some base → base ∈ names q'

/-- A query with further entries, one of each new name. -/
structure AddedOnce (l : Layer) (fits : String → Prop) (q q' : Query) : Prop
    extends Added l fits q q' where
  nodup : (names q).Nodup → (names q').Nodup

section Adding

variable {l : Layer} {fits : String → Prop} {q q' q'' : Query} {body : Query}

theorem has_iff : has q name = true ↔ name ∈ names q :=
  contains_iff_mem

theorem mem_names_of_mem {cte : Cte Query} (member : cte ∈ q.ctes) : nameOf cte ∈ names q :=
  mem_map_of_mem member

theorem Added.names_subset (added : Added l fits q q') (member : name ∈ names q) : name ∈ names q' := by
  obtain ⟨cte, found, rfl⟩ := mem_map.mp member
  exact mem_names_of_mem (added.kept cte found)

theorem Added.fits_of_mem (added : Added l fits q q') (member : name ∈ names q') : name ∈ names q ∨ fits name := by
  obtain ⟨cte, found, rfl⟩ := mem_map.mp member
  exact (added.new cte found).imp mem_names_of_mem fun h => h.2

theorem Added.refl (l : Layer) (fits : String → Prop) (q : Query) : Added l fits q q where
  rest := .refl q
  kept _ member := member
  new _ member := .inl member
  based _ member fresh := absurd member fresh

theorem Added.trans (first : Added l fits q q') (second : Added l fits q' q'') : Added l fits q q'' where
  rest := first.rest.trans second.rest
  kept cte member := second.kept cte (first.kept cte member)
  new cte member := by
    rcases second.new cte member with member | ⟨fresh, fit⟩
    · exact first.new cte member
    · exact .inr ⟨fun old => fresh (first.names_subset old), fit⟩
  based name member fresh base found := by
    by_cases old : name ∈ names q'
    · exact second.names_subset (first.based name old fresh base found)
    · exact second.based name member old base found

theorem AddedOnce.refl (l : Layer) (fits : String → Prop) (q : Query) : AddedOnce l fits q q where
  toAdded := .refl l fits q
  nodup h := h

theorem AddedOnce.trans (first : AddedOnce l fits q q') (second : AddedOnce l fits q' q'') :
    AddedOnce l fits q q'' where
  toAdded := first.toAdded.trans second.toAdded
  nodup h := second.nodup (first.nodup h)

theorem push_perm : (push l name body q).ctes.Perm ({ name := .ofName name, query := body } :: q.ctes) := by
  have split : q.ctes.takeWhile ((fun name => (l.kind? name).isSome) ∘ nameOf) ++
      q.ctes.dropWhile ((fun name => (l.kind? name).isSome) ∘ nameOf) = q.ctes :=
    takeWhile_append_dropWhile
  refine perm_middle.trans ?_
  rw [split]

theorem sublist_push : q.ctes.Sublist (push l name body q).ctes := by
  have split : q.ctes.takeWhile ((fun name => (l.kind? name).isSome) ∘ nameOf) ++
      q.ctes.dropWhile ((fun name => (l.kind? name).isSome) ∘ nameOf) = q.ctes :=
    takeWhile_append_dropWhile
  conv_lhs => rw [← split]
  exact (Sublist.refl _).append (sublist_cons_self _ _)

theorem names_push_perm : (names (push l name body q)).Perm (name :: names q) := by
  have named : nameOf { name := .ofName name, query := body } = name := Sql.Ident.ofName_value name
  have mapped : (names (push l name body q)).Perm
      (({ name := .ofName name, query := body } :: q.ctes).map nameOf) := push_perm.map nameOf
  rwa [map_cons, named] at mapped

theorem AddedOnce.push (fresh : name ∉ names q) (fit : fits name)
    (based : ∀ base, l.base? name = some base → base ∈ names q) : AddedOnce l fits q (push l name body q) where
  rest := ⟨rfl, rfl, rfl, rfl⟩
  kept cte member := push_perm.mem_iff.mpr (mem_cons_of_mem _ member)
  new cte member := by
    rcases mem_cons.mp (push_perm.mem_iff.mp member) with rfl | member
    · exact .inr ⟨by simpa [nameOf] using fresh, by simpa [nameOf] using fit⟩
    · exact .inl member
  nodup h := by
    rw [names_push_perm.nodup_iff]
    exact nodup_cons.mpr ⟨fresh, h⟩
  based other member new base found := by
    rw [names_push_perm.mem_iff] at member ⊢
    rcases mem_cons.mp member with rfl | old
    · exact mem_cons_of_mem _ (based base found)
    · exact absurd old new

/-- Entries are added one after another: each has a new name and a fitting query, and its base is there. -/
inductive Pushed (l : Layer) (fits : String → Query → Prop) (q : Query) : Query → Prop
  | refl : Pushed l fits q q
  | push {q' : Query} {name : String} {body : Query} : Pushed l fits q q' → name ∉ names q' →
      (∀ base, l.base? name = some base → base ∈ names q') → fits name body →
      Pushed l fits q (push l name body q')

namespace Pushed

variable {fits fits' : String → Query → Prop}

theorem trans (first : Pushed l fits q q') (second : Pushed l fits q' q'') : Pushed l fits q q'' := by
  induction second with
  | refl => exact first
  | push _ fresh based fit ih => exact .push ih fresh based fit

theorem keeps {p : Query → Prop} (each : ∀ q name body, fits name body → p q → p (With.push l name body q))
    (pushed : Pushed l fits q q') (start : p q) : p q' := by
  induction pushed with
  | refl => exact start
  | push _ _ _ fit ih => exact each _ _ _ fit ih

theorem addedOnce {kinds : String → Prop} (pushed : Pushed l fits q q')
    (weaker : ∀ name body, fits name body → kinds name) : AddedOnce l kinds q q' := by
  induction pushed with
  | refl => exact .refl l kinds q
  | push _ fresh based fit ih => exact ih.trans (.push fresh (weaker _ _ fit) based)

theorem added (pushed : Pushed l fits q q') : AddedOnce l (fun _ => True) q q' :=
  pushed.addedOnce fun _ _ _ => trivial

theorem names_subset (pushed : Pushed l fits q q') (member : name ∈ names q) : name ∈ names q' :=
  pushed.added.names_subset member

theorem mono (pushed : Pushed l fits q q')
    (weaker : ∀ name body, name ∉ names q → fits name body → fits' name body) : Pushed l fits' q q' := by
  induction pushed with
  | refl => exact .refl
  | push before fresh based fit ih =>
    exact .push ih fresh based (weaker _ _ (fun old => fresh (before.names_subset old)) fit)

theorem entry (pushed : Pushed l fits q q') {cte : Sql.Cte Query} (member : cte ∈ q'.ctes) :
    cte ∈ q.ctes ∨ nameOf cte ∉ names q ∧ fits (nameOf cte) cte.query := by
  induction pushed with
  | refl => exact .inl member
  | @push _ name body before fresh _ fit ih =>
    rcases mem_cons.mp (push_perm.mem_iff.mp member) with rfl | old
    · have named : nameOf { name := .ofName name, query := body } = name := Sql.Ident.ofName_value name
      rw [named]
      exact .inr ⟨fun old => fresh (before.names_subset old), fit⟩
    · exact ih old

end Pushed

theorem mentions_of_push (mentions : (push l name body q).Mentions reach mention) :
    q.Mentions reach mention ∨ body.Mentions reach mention := by
  rw [Query.mentions_iff] at mentions
  rcases mentions with here | inner | ⟨cte, member, mentions⟩
  · exact .inl (Query.mentions_iff.mpr (.inl here))
  · exact .inl (Query.mentions_iff.mpr (.inr (.inl inner)))
  · rcases mem_cons.mp (push_perm.mem_iff.mp member) with rfl | member
    · exact .inr mentions
    · exact .inl (Query.mentions_iff.mpr (.inr (.inr ⟨cte, member, mentions⟩)))

theorem Added.mentions (added : Added l fits q q')
    (mentions : q.Mentions reach mention) : q'.Mentions reach mention := by
  rw [Query.mentions_iff] at mentions ⊢
  rw [added.rest.body, added.rest.inner_eq]
  exact mentions.imp_right (Or.imp_right fun ⟨cte, member, h⟩ => ⟨cte, added.kept cte member, h⟩)

end Adding

section Sorting

variable {α : Type} {p : α → Bool} {l others : List α} {found : α}

theorem extract_split (extracted : extract? p l = some (found, others)) : ∃ front back, l = front ++ found :: back ∧
    others = front ++ back ∧ p found = true ∧ ∀ a ∈ front, p a = false := by
  induction l generalizing found others with
  | nil => cases extracted
  | cons a l ih =>
    unfold extract? at extracted
    split at extracted
    · rename_i holds
      cases extracted
      exact ⟨[], l, rfl, rfl, holds, by simp⟩
    · rename_i refused
      obtain ⟨⟨x, rest⟩, found', same⟩ := Option.map_eq_some_iff.mp extracted
      cases same
      obtain ⟨front, back, rfl, rfl, holds, first⟩ := ih found'
      exact ⟨a :: front, back, rfl, rfl, holds, forall_mem_cons.mpr ⟨Bool.eq_false_iff.mpr refused, first⟩⟩

theorem extract_perm (extracted : extract? p l = some (found, others)) : l.Perm (found :: others) := by
  obtain ⟨front, back, rfl, rfl, _⟩ := extract_split extracted
  exact perm_middle

theorem orderFrom_perm (reads : Cte Query → List String) (n : Nat) (done : List String)
    (pending : List (Cte Query)) : (orderFrom reads n done pending).Perm pending := by
  induction n generalizing done pending with
  | zero => exact .refl _
  | succ n ih =>
    unfold orderFrom
    split
    · rename_i cte others extracted
      exact ((ih _ others).cons cte).trans (extract_perm extracted).symm
    · rename_i cte others _
      exact (ih _ others).cons cte
    · exact .refl _

theorem extract_holds (extracted : extract? p l = some (found, others)) : p found = true := by
  obtain ⟨_, _, _, _, holds, _⟩ := extract_split extracted
  exact holds

theorem extract_eq_none : extract? p l = none ↔ ∀ a ∈ l, p a = false := by
  induction l with
  | nil => simp [extract?]
  | cons a l ih =>
    unfold extract?
    split
    · simp [*]
    · simp [*, Option.map_eq_none_iff]

section Steps

variable {reads : Cte Query → List String} {n : Nat} {done : List String} {cte : Cte Query} {others : List (Cte Query)}

theorem orderFrom_ready {pending : List (Cte Query)}
    (extracted : extract? (fun cte => (reads cte).all done.contains) pending = some (cte, others)) :
    orderFrom reads (n + 1) done pending = cte :: orderFrom reads n (nameOf cte :: done) others := by
  simp [orderFrom, extracted]

theorem orderFrom_stuck (extracted : extract? (fun cte => (reads cte).all done.contains) (cte :: others) = none) :
    orderFrom reads (n + 1) done (cte :: others) = cte :: orderFrom reads n (nameOf cte :: done) others := by
  simp [orderFrom, extracted]

end Steps

/-- Entries that have been put in order stay so: the entry that is taken first is the first one then. -/
theorem orderFrom_orderFrom (reads : Cte Query → List String) (n : Nat) (done : List String)
    (pending : List (Cte Query)) :
    orderFrom reads n done (orderFrom reads n done pending) = orderFrom reads n done pending := by
  induction n generalizing done pending with
  | zero => rfl
  | succ n ih =>
    cases extracted : extract? (fun cte => (reads cte).all done.contains) pending with
    | some taken =>
      obtain ⟨cte, others⟩ := taken
      have again : extract? (fun cte => (reads cte).all done.contains)
          (cte :: orderFrom reads n (nameOf cte :: done) others) =
            some (cte, orderFrom reads n (nameOf cte :: done) others) := if_pos (extract_holds extracted)
      rw [orderFrom_ready extracted, orderFrom_ready again, ih]
    | none =>
      cases pending with
      | nil => simp [orderFrom, extract?]
      | cons cte others =>
        have stuck : extract? (fun cte => (reads cte).all done.contains)
            (cte :: orderFrom reads n (nameOf cte :: done) others) = none := by
          refine extract_eq_none.mpr fun a member => extract_eq_none.mp extracted a ?_
          exact ((orderFrom_perm reads n _ others).cons cte).mem_iff.mp member
        rw [orderFrom_stuck extracted, orderFrom_stuck stuck, ih]

/-- A query with its entries in another order. -/
structure Reordered (q q' : Query) : Prop where
  rest : SameBody q q'
  perm : q'.ctes.Perm q.ctes

theorem sort_reordered (q : Query) : Reordered q (sort q) := by
  unfold sort
  split
  · exact ⟨.refl q, .refl _⟩
  · exact ⟨⟨rfl, rfl, rfl, rfl⟩, orderFrom_perm _ _ _ _⟩

theorem sort_sort (q : Query) : sort (sort q) = sort q := by
  by_cases recursive : q.recursive = true
  · have same : sort q = q := if_pos recursive
    rw [same, same]
  · have sorted : sort q = { q with ctes := orderFrom (dependencies (names q)) q.ctes.length [] q.ctes } :=
      if_neg recursive
    have perm := (sort_reordered q).perm
    have reads : dependencies (names (sort q)) = dependencies (names q) := by
      funext cte
      unfold dependencies
      refine filter_congr fun name _ => ?_
      rw [Bool.eq_iff_iff]
      simp only [Bool.and_eq_true, contains_iff_mem, names, (perm.map nameOf).mem_iff]
    have again : sort (sort q) =
        { sort q with ctes := orderFrom (dependencies (names (sort q))) (sort q).ctes.length [] (sort q).ctes } := by
      refine if_neg ?_
      rw [sorted]
      exact recursive
    rw [again, reads, perm.length_eq, sorted, orderFrom_orderFrom]

variable {q q' : Query}

theorem Reordered.names_perm (reordered : Reordered q q') : (names q').Perm (names q) :=
  reordered.perm.map nameOf

theorem Reordered.mentions_iff (reordered : Reordered q q') : q'.Mentions reach mention ↔ q.Mentions reach mention := by
  rw [Query.mentions_iff, Query.mentions_iff, reordered.rest.body, reordered.rest.inner_eq]
  simp only [reordered.perm.mem_iff]

end Sorting

section Pruning

variable {l : Layer} {q q' q'' : Query}

/-- A query without some entries of objects that it does not mention. -/
structure Pruned (l : Layer) (q q' : Query) : Prop where
  rest : SameBody q q'
  fewer : q'.ctes.Sublist q.ctes
  kept : ∀ cte ∈ q.ctes, l.kind? (nameOf cte) = none ∨ nameOf cte ∈ mentioned q' → cte ∈ q'.ctes

theorem mem_mentioned {part : String} (mentions : q.Mentions .visited mention)
    (last : mention.name.values.getLast? = some part) : part ∈ mentioned q ∨ part ∈ names q := by
  simp only [mentioned, mem_append, mem_flatMap]
  rcases Query.mentions_iff.mp mentions with here | ⟨x, member, mentions⟩ | ⟨cte, member, mentions⟩
  · exact .inl (.inl (.inl (mem_append_left _ (Sql.Body.mem_lastParts here last))))
  · have read := mentions.mem_relations last
    simp only [Query.inner, Sql.Reach.aside, append_nil, mem_append] at member
    rcases member with inBody | inOrder
    · refine .inl (.inl (.inl (mem_append_right _ (mem_flatMap.mpr ⟨x, ?_, read⟩))))
      exact Sql.Body.queries_of_inner inBody
    · obtain ⟨item, found, member⟩ := mem_flatMap.mp inOrder
      exact .inl (.inl (.inr ⟨item, found, x, member, read⟩))
  · by_cases own : part = nameOf cte
    · exact .inr (own ▸ mem_names_of_mem member)
    · refine .inl (.inr ⟨cte, member, mem_filter.mpr ⟨mentions.mem_relations last, ?_⟩⟩)
      simpa using own

theorem mentioned_subset (rest : SameBody q q') (fewer : q'.ctes.Sublist q.ctes)
    (member : name ∈ mentioned q') : name ∈ mentioned q := by
  simp only [mentioned, rest.body, rest.orderBy, mem_append, mem_flatMap] at member ⊢
  rcases member with here | ⟨cte, found, h⟩
  · exact .inl here
  · exact .inr ⟨cte, fewer.subset found, h⟩

theorem Pruned.trans (first : Pruned l q q') (second : Pruned l q' q'') : Pruned l q q'' where
  rest := first.rest.trans second.rest
  fewer := second.fewer.trans first.fewer
  kept cte member reason := second.kept cte
    (first.kept cte member (reason.imp_right (mentioned_subset second.rest second.fewer))) reason

theorem pruneOnce_pruned (l : Layer) (q : Query) : Pruned l q (pruneOnce l q) := by
  have rest : SameBody q (pruneOnce l q) := ⟨rfl, rfl, rfl, rfl⟩
  have fewer : (pruneOnce l q).ctes.Sublist q.ctes := filter_sublist
  refine ⟨rest, fewer, fun cte member reason => mem_filter.mpr ⟨member, ?_⟩⟩
  rcases reason with none | read
  · simp [none]
  · simp [mentioned_subset rest fewer read]

theorem prune_pruned (l : Layer) (q : Query) : Pruned l q (prune l q) := by
  have upTo : ∀ n q, Pruned l q (pruneUpTo l n q) := by
    intro n
    induction n with
    | zero => exact fun q => ⟨.refl q, .refl _, fun _ member _ => member⟩
    | succ n ih =>
      intro q
      have once := pruneOnce_pruned l q
      rw [pruneUpTo]
      split
      · exact ⟨⟨rfl, rfl, rfl, rfl⟩, once.fewer, once.kept⟩
      · split
        · exact once
        · exact once.trans (ih _)
  exact upTo _ q

end Pruning

end With

end SemanticLayer
