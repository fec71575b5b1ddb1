import SemanticLayer.Proofs.Bindings
import SemanticLayer.Proofs.PassThrough

/-! # The order of WITH entries

Entries are put in order one at a time, always the first one that is ready. As long as entries do not depend on
each other in a circle there is one that is ready. Every other order with each entry behind those it depends on
has, at the first place where the two differ, an entry that stood further back at first.
-/

namespace SemanticLayer

open List

open Sql (Query Cte)

/-- Without circles, some member of a list leads to no other one. -/
theorem exists_mem_without_successor {α : Type} {r : α → α → Prop} (acyclic : ∀ a, ¬Relation.TransGen r a a)
    {l : List α} (nonempty : l ≠ []) : ∃ a ∈ l, ∀ b ∈ l, ¬Relation.TransGen r a b := by
  induction l with
  | nil => exact absurd rfl nonempty
  | cons a rest ih =>
    by_cases alone : rest = []
    · subst alone
      refine ⟨a, mem_cons_self, fun b there onwards => ?_⟩
      cases mem_singleton.mp there
      exact acyclic a onwards
    · obtain ⟨last, member, final⟩ := ih alone
      by_cases leads : Relation.TransGen r last a
      · -- Whatever `a` leads to, `last` leads to as well.
        refine ⟨a, mem_cons_self, fun b there onwards => ?_⟩
        rcases mem_cons.mp there with rfl | there
        · exact acyclic b onwards
        · exact final b there (leads.trans onwards)
      · refine ⟨last, mem_cons_of_mem _ member, fun b there onwards => ?_⟩
        rcases mem_cons.mp there with rfl | there
        · exact leads onwards
        · exact final b there onwards

namespace Sql.Query

/-- A name is the last part of the name of a relation, somewhere in a query. -/
def RefersTo (q : Query) (part : String) : Prop := ∃ name, q.Names name ∧ name.values.getLast? = some part

theorem mem_relations_iff {q : Query} {part : String} : part ∈ q.relations ↔ q.RefersTo part := by
  constructor
  · have deep : ∀ (n : Nat) (q : Query), part ∈ q.relationsAt n → q.RefersTo part := by
      intro n
      induction n with
      | zero =>
        intro q member
        cases member
      | succ n ih =>
        intro q member
        rw [relationsAt] at member
        rcases mem_append.mp member with here | below
        · obtain ⟨name, named, last⟩ := mem_filterMap.mp here
          exact ⟨name, .here named, last⟩
        · obtain ⟨x, nested, found⟩ := mem_flatMap.mp below
          obtain ⟨name, named, last⟩ := ih x found
          exact ⟨name, .nested nested named, last⟩
    exact deep q.height q
  · rintro ⟨name, named, last⟩
    exact named.mem_relations last

end Sql.Query

namespace With

variable {q : Query} {cte e : Cte Query} {order : List (Cte Query)}

/-- An entry depends on every other entry that its query refers to. -/
structure DependsOn (q : Query) (cte e : Cte Query) : Prop where
  reader : cte ∈ q.ctes
  entry : e ∈ q.ctes
  other : nameOf e ≠ nameOf cte
  refers : cte.query.RefersTo (nameOf e)

/-- No entry depends on itself, not even through other entries. -/
def Acyclic (q : Query) : Prop := ∀ cte, ¬Relation.TransGen (DependsOn q) cte cte

/-- The entries of a query with each one behind those it depends on. -/
structure IsOrder (q : Query) (order : List (Cte Query)) : Prop where
  perm : order.Perm q.ctes
  behind : ∀ cte e, DependsOn q cte e → [e, cte].Sublist order

/-- Where an entry stands at first. -/
def position (q : Query) (cte : Cte Query) : Nat := (names q).idxOf (nameOf cte)

theorem mem_dependencies_iff {name : String} (member : cte ∈ q.ctes) :
    name ∈ dependencies (names q) cte ↔ ∃ e, DependsOn q cte e ∧ nameOf e = name := by
  simp only [dependencies, mem_filter, Bool.and_eq_true, contains_iff_mem, bne_iff_ne, Query.mem_relations_iff]
  constructor
  · rintro ⟨refers, listed, other⟩
    obtain ⟨e, entry, rfl⟩ := mem_map.mp listed
    exact ⟨e, ⟨member, entry, other, refers⟩, rfl⟩
  · rintro ⟨e, depends, rfl⟩
    exact ⟨depends.refers, mem_names_of_mem depends.entry, depends.other⟩

/-- There is no circle if every entry is higher than the other entries whose names it mentions. -/
theorem acyclic_of_height {entries : List (String × List String)}
    (listed : q.ctes.map (fun cte => (nameOf cte, cte.query.relations)) = entries) (height : String → Nat)
    (lower : ∀ entry ∈ entries, ∀ name ∈ entry.2, name ∈ entries.map Prod.fst → name ≠ entry.1 →
      height name < height entry.1) : Acyclic q := by
  have step : ∀ cte e, DependsOn q cte e → height (nameOf e) < height (nameOf cte) := by
    intro cte e depends
    have reader := mem_map_of_mem (f := fun cte => (nameOf cte, cte.query.relations)) depends.reader
    have entry := mem_map_of_mem (f := fun cte => (nameOf cte, cte.query.relations)) depends.entry
    rw [listed] at reader entry
    exact lower _ reader _ (Query.mem_relations_iff.mpr depends.refers) (mem_map_of_mem entry) depends.other
  have down : ∀ cte e, Relation.TransGen (DependsOn q) cte e → height (nameOf e) < height (nameOf cte) := by
    intro cte e path
    induction path with
    | single depends => exact step _ _ depends
    | tail _ depends ih => exact Nat.lt_trans (step _ _ depends) ih
  exact fun cte path => Nat.lt_irrefl _ (down cte cte path)

section Legal

variable {reads : Cte Query → List String} {done : List String}

/-- Each entry stands behind all that it reads, given the names of the entries in front of the list. -/
def Legal (reads : Cte Query → List String) (done : List String) (order : List (Cte Query)) : Prop :=
  ∀ front cte back, order = front ++ cte :: back → ∀ name ∈ reads cte, name ∈ done ∨ name ∈ front.map nameOf

theorem legal_nil : Legal reads done [] := by
  intro front cte back split
  cases front <;> cases split

theorem legal_cons_iff : Legal reads done (cte :: order) ↔
    (∀ name ∈ reads cte, name ∈ done) ∧ Legal reads (nameOf cte :: done) order := by
  constructor
  · intro legal
    refine ⟨fun name member => ?_, fun front e back split name member => ?_⟩
    · simpa using legal [] cte order rfl name member
    · have read := legal (cte :: front) e back (by rw [split, cons_append]) name member
      rw [map_cons, mem_cons] at read
      rw [mem_cons]
      tauto
  · rintro ⟨ready, legal⟩ front e back split name member
    cases front with
    | nil =>
      obtain ⟨rfl, rfl⟩ := cons.inj split
      exact .inl (ready name member)
    | cons first front =>
      obtain ⟨rfl, rfl⟩ := cons.inj split
      have read := legal front e back rfl name member
      rw [mem_cons] at read
      rw [map_cons, mem_cons]
      tauto

theorem extract_sublist {α : Type} {p : α → Bool} {found : α} {l others : List α}
    (extracted : extract? p l = some (found, others)) : others.Sublist l := by
  obtain ⟨front, back, rfl, rfl, _⟩ := extract_split extracted
  exact (sublist_cons_self found back).append_left front

theorem extract_first {α : Type} {p : α → Bool} {found b : α} {l others : List α}
    (extracted : extract? p l = some (found, others)) (member : b ∈ l) (holds : p b = true) :
    b = found ∨ [found, b].Sublist l := by
  obtain ⟨front, back, rfl, _, _, first⟩ := extract_split extracted
  rcases mem_append.mp member with earlier | later
  · cases (first b earlier).symm.trans holds
  · refine (mem_cons.mp later).imp_right fun later => ?_
    exact ((singleton_sublist.mpr later).cons_cons found).trans (sublist_append_right front _)

/-- If some pending entry always reads no other pending one, entries come out behind all that they read. -/
theorem orderFrom_legal (all : List (Cte Query))
    (free : ∀ l, l ≠ [] → l ⊆ all → ∃ cte ∈ l, ∀ e ∈ l, nameOf e ∉ reads cte) (n : Nat) (done : List String)
    (pending : List (Cte Query)) (short : pending.length ≤ n) (within : pending ⊆ all)
    (known : ∀ cte ∈ pending, ∀ name ∈ reads cte, name ∈ done ∨ name ∈ pending.map nameOf) :
    Legal reads done (orderFrom reads n done pending) := by
  induction n generalizing done pending with
  | zero =>
    cases eq_nil_of_length_eq_zero (Nat.le_zero.mp short)
    rw [orderFrom]
    exact legal_nil
  | succ n ih =>
    cases extracted : extract? (fun cte => (reads cte).all done.contains) pending with
    | some taken =>
      obtain ⟨cte, others⟩ := taken
      have perm := extract_perm extracted
      have ready := extract_holds extracted
      rw [orderFrom_ready extracted, legal_cons_iff]
      refine ⟨fun name member => ?_, ih _ others ?_ ?_ ?_⟩
      · simpa using all_eq_true.mp ready name member
      · have length := perm.length_eq
        rw [length_cons] at length
        omega
      · exact fun e member => within ((extract_sublist extracted).subset member)
      · intro e member name read
        have old := known e ((extract_sublist extracted).subset member) name read
        rw [(perm.map nameOf).mem_iff, map_cons, mem_cons] at old
        rw [mem_cons]
        tauto
    | none =>
      cases pending with
      | nil =>
        simp only [orderFrom, extracted]
        exact legal_nil
      | cons first rest =>
        obtain ⟨cte, member, unread⟩ := free (first :: rest) (cons_ne_nil _ _) within
        have ready : (reads cte).all done.contains = true := by
          refine all_eq_true.mpr fun name read => contains_iff_mem.mpr ?_
          refine (known cte member name read).resolve_right fun pending => ?_
          obtain ⟨e, there, rfl⟩ := mem_map.mp pending
          exact unread e there read
        rw [extract_eq_none.mp extracted cte member] at ready
        cases ready

/-- Any other way to put entries behind all that they read is larger: its first entry that is not taken here was
    ready, so it stands behind the one that is taken. -/
theorem orderFrom_least {rank : Cte Query → Nat} (n : Nat) (done : List String) (pending order : List (Cte Query))
    (short : pending.length ≤ n) (ranked : pending.Pairwise (rank · < rank ·)) (perm : order.Perm pending)
    (legal : Legal reads done order) : order = orderFrom reads n done pending ∨
      Lex (· < ·) ((orderFrom reads n done pending).map rank) (order.map rank) := by
  induction n generalizing done pending order with
  | zero =>
    cases eq_nil_of_length_eq_zero (Nat.le_zero.mp short)
    exact .inl perm.eq_nil
  | succ n ih =>
    cases order with
    | nil =>
      cases perm.nil_eq
      exact .inl (by simp [orderFrom, extract?])
    | cons b rest =>
      obtain ⟨ready, legal⟩ := legal_cons_iff.mp legal
      have member : b ∈ pending := perm.mem_iff.mp mem_cons_self
      have holds : (reads b).all done.contains = true :=
        all_eq_true.mpr fun name read => contains_iff_mem.mpr (ready name read)
      cases extracted : extract? (fun cte => (reads cte).all done.contains) pending with
      | none =>
        rw [extract_eq_none.mp extracted b member] at holds
        cases holds
      | some taken =>
        obtain ⟨a, others⟩ := taken
        rw [orderFrom_ready extracted]
        rcases extract_first extracted member holds with rfl | behind
        · have fewer := extract_perm extracted
          have rest' : rest.Perm others := (perm.trans fewer).cons_inv
          have length := fewer.length_eq
          rw [length_cons] at length
          have later := ih (nameOf b :: done) others rest (by omega)
            (ranked.sublist (extract_sublist extracted)) rest' legal
          refine later.imp (congrArg _) fun less => ?_
          rw [map_cons, map_cons]
          exact .cons less
        · have lower : rank a < rank b := by simpa using ranked.sublist behind
          rw [map_cons, map_cons]
          exact .inr (.rel lower)

end Legal

section Sorting

theorem mem_front {front back : List (Cte Query)} (distinct : ((front ++ cte :: back).map nameOf).Nodup)
    (before : [e, cte].Sublist (front ++ cte :: back)) : e ∈ front := by
  have late : cte ∉ back := by
    intro again
    rw [map_append, map_cons] at distinct
    exact (nodup_cons.mp (nodup_append.mp distinct).2.1).1 (mem_map_of_mem again)
  obtain ⟨early, rest, split, infront, behind⟩ := sublist_append_iff.mp before
  cases early with
  | nil =>
    rw [nil_append] at split
    rw [← split] at behind
    cases behind with
    | cons _ later => exact absurd (later.subset (by simp)) late
    | cons_cons _ later => exact absurd (singleton_sublist.mp later) late
  | cons first early =>
    obtain ⟨rfl, _⟩ := cons.inj split
    exact infront.subset mem_cons_self

theorem IsOrder.legal (ordered : IsOrder q order) (distinct : (names q).Nodup) :
    Legal (dependencies (names q)) [] order := by
  intro front cte back split name read
  have member : cte ∈ q.ctes := ordered.perm.mem_iff.mp (by simp [split])
  obtain ⟨e, depends, rfl⟩ := (mem_dependencies_iff member).mp read
  have before := ordered.behind cte e depends
  have distinct' : (order.map nameOf).Nodup := (ordered.perm.map nameOf).nodup_iff.mpr distinct
  rw [split] at before distinct'
  exact .inr (mem_map_of_mem (mem_front distinct' before))

theorem isOrder_of_legal (distinct : (names q).Nodup) (perm : order.Perm q.ctes)
    (legal : Legal (dependencies (names q)) [] order) : IsOrder q order := by
  refine ⟨perm, fun cte e depends => ?_⟩
  obtain ⟨front, back, split⟩ := append_of_mem (perm.mem_iff.mpr depends.reader)
  have read := (mem_dependencies_iff depends.reader).mpr ⟨e, depends, rfl⟩
  have named := (legal front cte back split _ read).resolve_left not_mem_nil
  obtain ⟨e', early, same⟩ := mem_map.mp named
  have entry : e' ∈ q.ctes := perm.mem_iff.mp (by simp [split, early])
  cases eq_of_nameOf distinct entry depends.entry same
  rw [split]
  exact (singleton_sublist.mpr early).append ((nil_sublist back).cons_cons cte)

theorem ctes_pairwise_position (distinct : (names q).Nodup) : q.ctes.Pairwise (position q · < position q ·) := by
  refine pairwise_iff_getElem.mpr fun i j hi hj lower => ?_
  have place : ∀ k (hk : k < q.ctes.length), position q q.ctes[k] = k := by
    intro k hk
    have inside : k < (names q).length := by rwa [names, length_map]
    have listed : nameOf q.ctes[k] = (names q)[k] := by simp [names]
    rw [position, listed, distinct.idxOf_getElem]
  rwa [place i hi, place j hj]

theorem sort_ctes (plain : q.recursive = false) :
    (sort q).ctes = orderFrom (dependencies (names q)) q.ctes.length [] q.ctes := by
  rw [sort, if_neg (by simp [plain])]

/-- The entries come out behind those they depend on, if there is no circle. -/
theorem sort_isOrder (plain : q.recursive = false) (distinct : (names q).Nodup) (acyclic : Acyclic q) :
    IsOrder q (sort q).ctes := by
  apply isOrder_of_legal distinct (sort_reordered q).perm
  rw [sort_ctes plain]
  refine orderFrom_legal q.ctes ?_ _ _ _ (Nat.le_refl _) (Subset.refl _) ?_
  · intro l nonempty within
    obtain ⟨cte, member, last⟩ := exists_mem_without_successor acyclic nonempty
    refine ⟨cte, member, fun e there read => ?_⟩
    obtain ⟨e', depends, same⟩ := (mem_dependencies_iff (within member)).mp read
    cases eq_of_nameOf distinct depends.entry (within there) same
    exact last e there (.single depends)
  · intro cte member name read
    obtain ⟨e, depends, rfl⟩ := (mem_dependencies_iff member).mp read
    exact .inr (mem_map_of_mem depends.entry)

/-- Putting entries in order permutes them and changes nothing else. Of all orders with each entry behind those it
    depends on, the result is the first one by the positions of the entries before; a second time changes nothing. -/
theorem sort_least (q : Query) : sort (sort q) = sort q ∧
    (q.recursive = false → (names q).Nodup → sort q = { q with ctes := (sort q).ctes } ∧ (sort q).ctes.Perm q.ctes ∧
      (Acyclic q → IsOrder q (sort q).ctes ∧ ∀ order, IsOrder q order →
        order = (sort q).ctes ∨ List.Lex (· < ·) ((sort q).ctes.map (position q)) (order.map (position q))) ∧
      (IsOrder q q.ctes → sort q = q)) := by
  refine ⟨sort_sort q, fun plain distinct => ?_⟩
  have only : sort q = { q with ctes := (sort q).ctes } := by
    rw [sort, if_neg (by simp [plain])]
  refine ⟨only, (sort_reordered q).perm, fun acyclic => ⟨sort_isOrder plain distinct acyclic, ?_⟩, fun ordered => ?_⟩
  · intro order ordered
    rw [sort_ctes plain]
    exact orderFrom_least _ _ _ _ (Nat.le_refl _) (ctes_pairwise_position distinct) ordered.perm
      (ordered.legal distinct)
  · have same := orderFrom_eq_self _ _ _ (Nat.le_refl q.ctes.length) (ordered.legal distinct)
    rw [only, sort_ctes plain, same]
    cases q
    rfl

/-- A chain of three entries that is written backwards is turned around, behind an entry that depends on nothing. -/
theorem sort_least_of_chain : ∃ q,
    readQuery ("WITH c AS (SELECT * FROM b), d AS (SELECT 2 AS y), b AS (SELECT * FROM main.a), " ++
      "a AS (SELECT 1 AS x) SELECT * FROM c") = .ok q ∧
    q.recursive = false ∧ (names q).Nodup ∧ Acyclic q ∧ names (sort q) = ["d", "a", "b", "c"] ∧
    IsOrder q (sort q).ctes ∧ (∀ order, IsOrder q order → order = (sort q).ctes ∨
      List.Lex (· < ·) ((sort q).ctes.map (position q)) (order.map (position q))) ∧ sort (sort q) = sort q := by
  refine returns_one (p := fun q => q.recursive = false ∧ (q.ctes.map fun cte => (nameOf cte, cte.query.relations)) =
    [("c", ["b"]), ("d", []), ("b", ["a"]), ("a", [])] ∧ names (sort q) = ["d", "a", "b", "c"]) (by decide +kernel)
    fun q _ facts => ?_
  obtain ⟨plain, entries, sorted⟩ := facts
  have named : names q = ["c", "d", "b", "a"] := by
    simpa [names, Function.comp_def] using congrArg (map Prod.fst) entries
  have distinct : (names q).Nodup := by
    rw [named]
    decide
  have acyclic : Acyclic q := acyclic_of_height entries ["a", "b", "c"].idxOf (by decide)
  obtain ⟨again, once⟩ := sort_least q
  obtain ⟨_, _, least, _⟩ := once plain distinct
  obtain ⟨ordered, first⟩ := least acyclic
  exact ⟨plain, distinct, acyclic, sorted, ordered, first, again⟩

end Sorting

end With

end SemanticLayer
