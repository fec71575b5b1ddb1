import SemanticLayer.Proofs.Guards

/-! # Deciding whether names are guarded

All conditions on the names of a query can be computed.
-/

namespace SemanticLayer

open Sql

instance (s : Scope) (name : DottedName) : Decidable (∀ f rest, s.reference name ≠ .ok (.through f rest)) :=
  match meaning : s.reference name with
  | .ok (.through f rest) => isFalse fun direct => direct f rest rfl
  | .ok .nothing | .ok (.field _) | .error _ => isTrue (by simp)

instance (reach : Scope) (name : Path) :
    Decidable (∃ bare f, name = [bare] ∧ reach.resolve [bare.value] = .ok (some f)) :=
  match name with
  | [] | _ :: _ :: _ => isFalse (by simp)
  | [bare] =>
    match meaning : reach.resolve [bare.value] with
    | .ok (some f) => isTrue ⟨bare, f, rfl, meaning⟩
    | .ok none | .error _ => isFalse (by simp [meaning])

instance (e : Expr Query) (p : Ident → Prop) [DecidablePred p] : Decidable (∃ name, e = .ident name ∧ p name) :=
  match e with
  | .ident name => decidable_of_iff (p name) (by simp)
  | .path _ | .literal _ | .binary _ _ _ | .nested _ | .call _ _ _ | .form _ _ | .query _ => isFalse (by simp)

namespace Context

variable (c : Context) (targets : List String)

section Names

instance (word : String) : Decidable (c.JoinedColumn targets word) :=
  inferInstanceAs (Decidable (∃ target ∈ targets, ∃ f ∈ c.tableFields [.ofName target], f.name = word))

instance (s : Scope) (name : Path) : Decidable (c.Steady targets s name) :=
  decidable_of_iff _ (c.steady_iff targets s name).symm

instance (reach s : Scope) (name : Path) : Decidable (c.Secure targets reach s name) :=
  inferInstanceAs (Decidable (_ ∨ _))

instance (s : Scope) (name : DottedName) : Decidable (c.Plain targets s name) :=
  inferInstanceAs (Decidable (∀ word ∈ name.leads, s.Lacks word ∧ ¬ c.JoinedColumn targets word))

instance (s : Scope) (j : RelatedJoin) : Decidable (c.Fits targets s j) :=
  decidable_of_iff _ (c.fits_iff targets s j).symm

instance (s : Scope) (name : Path) : Decidable (c.Asks targets s name) :=
  match meaning : s.reference name.values with
  | .ok (.through f [column]) =>
    decidable_of_iff (∃ j, RelatedJoin.ofField c.layer f = .ok j ∧ c.Fits targets s j) (by simp [Asks, meaning])
  | .ok .nothing | .ok (.field _) | .ok (.through _ []) | .ok (.through _ (_ :: _ :: _)) | .error _ =>
    isFalse (by simp [Asks, meaning])

instance (reach s : Scope) (name : Path) : Decidable (c.Guarded targets reach s name) :=
  inferInstanceAs (Decidable (_ ∨ _))

end Names

section Levels

variable (rule : Scope → Scope → Path → Prop) [∀ reach s name, Decidable (rule reach s name)]

instance (s : Scope) (fields : List Field) (e : Expr Query) : Decidable (c.SafeCondition targets s fields e) :=
  inferInstanceAs (Decidable (_ ∨ _ ∧ _ ∧ ∀ name ∈ e.names, c.Secure targets [{ fields }] ({ fields } :: s) name))

instance (s : Scope) (a : Clauses) : Decidable (c.SafeNames rule s a) :=
  decidable_of_iff _ (c.safeNames_iff rule s a).symm

instance (s : Scope) (a : Clauses) : Decidable (c.SafeSource targets s a) :=
  decidable_of_iff _ (c.safeSource_iff targets s a).symm

instance (s : Scope) (a : Clauses) : Decidable (c.SafeSelect targets rule s a) :=
  decidable_of_iff _ (c.safeSelect_iff targets rule s a).symm

instance (s : Scope) (q : Query) : Decidable (c.SafeLevel targets rule s q) :=
  decidable_of_iff _ (c.safeLevel_iff targets rule s q).symm

end Levels

section Depth

/-- The queries directly in a query, with the scopes around them. -/
def enclosed (s : Scope) (q : Query) : List (Scope × Query) :=
  (q.body.selects q.orderBy).flatMap (fun a =>
    (a.queries .written).map (c.frame a :: s, ·) ++ (a.inner .written).map ([], ·)) ++
  q.body.operands.map (s, ·) ++ q.ctes.map (s, ·.query)

/-- The queries in a query, nested at most `n` deep, with the scopes around them. -/
def enclosedAt : Nat → Scope → Query → List (Scope × Query)
  | 0, _, _ => []
  | n + 1, s, q => (s, q) :: (c.enclosed s q).flatMap fun p => enclosedAt n p.1 p.2

variable {c targets} {s t : Scope} {q x y : Query}

theorem mem_enclosed : (t, x) ∈ c.enclosed s q ↔
    (∃ a ∈ q.body.selects q.orderBy, x ∈ a.queries .written ∧ t = c.frame a :: s ∨ x ∈ a.inner .written ∧ t = []) ∨
      x ∈ q.body.operands ∧ t = s ∨ ∃ cte ∈ q.ctes, cte.query = x ∧ t = s := by
  simp only [enclosed, List.mem_append, List.mem_flatMap, List.mem_map, Prod.mk.injEq, or_assoc]
  grind

theorem height_of_mem_enclosed (member : (t, x) ∈ c.enclosed s q) : x.height < q.height := by
  rcases mem_enclosed.mp member with ⟨a, select, nested⟩ | ⟨operand, _⟩ | ⟨cte, entry, rfl, _⟩
  · exact Query.height_lt_of_select select (nested.imp And.left And.left)
  · exact Query.height_lt_of_operand operand
  · exact Query.height_lt_ctes entry

theorem encloses_iff : c.Encloses s q t y ↔ (t, y) = (s, q) ∨ ∃ p ∈ c.enclosed s q, c.Encloses p.1 p.2 t y := by
  constructor
  · intro inside
    cases inside with
    | self => exact .inl rfl
    | clause member nested inside => exact .inr ⟨_, mem_enclosed.mpr (.inl ⟨_, member, .inl ⟨nested, rfl⟩⟩), inside⟩
    | source member nested inside => exact .inr ⟨_, mem_enclosed.mpr (.inl ⟨_, member, .inr ⟨nested, rfl⟩⟩), inside⟩
    | operand member inside => exact .inr ⟨_, mem_enclosed.mpr (.inr (.inl ⟨member, rfl⟩)), inside⟩
    | entry member inside => exact .inr ⟨_, mem_enclosed.mpr (.inr (.inr ⟨_, member, rfl, rfl⟩)), inside⟩
  · rintro (same | ⟨⟨t', x⟩, member, inside⟩)
    · cases same
      exact .self
    · rcases mem_enclosed.mp member with
        ⟨a, select, ⟨nested, rfl⟩ | ⟨nested, rfl⟩⟩ | ⟨operand, rfl⟩ | ⟨cte, entry, rfl, rfl⟩
      · exact .clause select nested inside
      · exact .source select nested inside
      · exact .operand operand inside
      · exact .entry entry inside

theorem mem_enclosedAt : ∀ (n : Nat) (s : Scope) (q : Query), q.height ≤ n →
    ((t, y) ∈ c.enclosedAt n s q ↔ c.Encloses s q t y)
  | 0, _, q, low => absurd q.height_pos (by omega)
  | n + 1, s, q, low => by
    rw [enclosedAt, List.mem_cons, List.mem_flatMap, encloses_iff]
    refine or_congr_right (exists_congr fun p => and_congr_right fun member => ?_)
    have lower := height_of_mem_enclosed member
    exact mem_enclosedAt n p.1 p.2 (by omega)

theorem safe_iff_enclosedAt {rule : Scope → Scope → Path → Prop} : c.Safe targets rule s q ↔
    ∀ p ∈ c.enclosedAt q.height s q, c.SafeLevel targets rule p.1 p.2 := by
  rw [Prod.forall]
  exact forall_congr' fun t => forall_congr' fun x => imp_congr_left (mem_enclosedAt _ s q (Nat.le_refl _)).symm

instance (rule : Scope → Scope → Path → Prop) [∀ reach s name, Decidable (rule reach s name)] :
    Decidable (c.Safe targets rule s q) :=
  decidable_of_iff _ safe_iff_enclosedAt.symm

end Depth

end Context

end SemanticLayer
