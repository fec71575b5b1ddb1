import Mathlib.Data.List.Forall2

/-! # What computations return

A judgement says of a computation that everything it returns has a property. Errors return nothing, so
they are judged freely. A walk over a tree is judged once, for every monad it may run in; a computation
with a state is judged either by an invariant of the state, or against what it has recorded in the end.
-/

namespace SemanticLayer

theorem toOption_eq_some_iff {ε α : Type} {x : Except ε α} {a : α} : x.toOption = some a ↔ x = .ok a := by
  cases x <;> simp [Except.toOption]

theorem bind_eq_ok_iff {ε α β : Type} {x : Except ε α} {f : α → Except ε β} {b : β} :
    (x >>= f) = .ok b ↔ ∃ a, x = .ok a ∧ f a = .ok b := by
  cases x with
  | error e => exact ⟨nofun, nofun⟩
  | ok a => exact ⟨fun returned => ⟨a, rfl, returned⟩, fun ⟨_, same, returned⟩ => Except.ok.inj same ▸ returned⟩

theorem forM_eq_ok_iff {ε α : Type} {f : α → Except ε Unit} {l : List α} : l.forM f = .ok () ↔ ∀ a ∈ l, f a = .ok () := by
  induction l with
  | nil => exact ⟨fun _ => List.forall_mem_nil _, fun _ => rfl⟩
  | cons a l ih =>
    rw [List.forall_mem_cons, ← ih]
    refine (bind_eq_ok_iff (x := f a)).trans ⟨?_, fun both => ⟨_, both.1, both.2⟩⟩
    rintro ⟨_, first, rest⟩
    exact ⟨first, rest⟩

theorem run_lift_bind {ε σ α β : Type} {x : Except ε α} {f : α → StateT σ (Except ε) β} {s : σ} :
    ((liftM x : StateT σ (Except ε) α) >>= f).run s = x >>= fun a => (f a).run s := by
  cases x <;> rfl

theorem ok_bind {ε α β : Type} {a : α} {f : α → Except ε β} : (Except.ok a >>= f) = f a := rfl

instance decidableReturns {ε α : Type} (x : Except ε α) : Decidable (∃ a, x = .ok a) :=
  match x with
  | .ok a => isTrue ⟨a, rfl⟩
  | .error _ => isFalse nofun

instance decidableReturnsSuch {ε α : Type} (x : Except ε α) (p : α → Prop) [DecidablePred p] :
    Decidable (∃ a, x = .ok a ∧ p a) :=
  match x with
  | .ok a => decidable_of_iff (p a) (by simp)
  | .error _ => isFalse (by simp)

section Runs

variable {ε ε' ε'' α β γ : Type} {x : Except ε α} {f : α → Except ε' β} {g : α → β → Except ε'' γ}

theorem returns_one {p r : α → Prop} (run : ∃ a, x = .ok a ∧ p a) (general : ∀ a, x = .ok a → p a → r a) :
    ∃ a, x = .ok a ∧ r a := by
  obtain ⟨a, ran, facts⟩ := run
  exact ⟨a, ran, general a ran facts⟩

theorem returns_two {p r : α → β → Prop} (run : ∃ a, x = .ok a ∧ ∃ b, f a = .ok b ∧ p a b)
    (general : ∀ a b, f a = .ok b → p a b → r a b) : ∃ a b, x = .ok a ∧ f a = .ok b ∧ r a b := by
  obtain ⟨a, ran, b, ran', facts⟩ := run
  exact ⟨a, b, ran, ran', general a b ran' facts⟩

end Runs

/-- A way to say that all results of a computation have a property. A property that is shown to follow
    from another one may use it, whatever is computed in between. -/
structure Judgement (m : Type → Type) [Monad m] [LawfulMonad m] where
  holds : {α : Type} → m α → (α → Prop) → Prop
  pure : ∀ {α : Type} {p : α → Prop} {a : α}, p a → holds (Pure.pure a) p
  bind : ∀ {α β : Type} {x : m α} {f : α → m β} {p : α → Prop} {q : β → Prop},
    holds x p → (∀ a, holds (f a) fun b => p a → q b) → holds (x >>= f) q
  and : ∀ {α : Type} {x : m α} {p q : α → Prop}, holds x p → holds x q → holds x fun a => p a ∧ q a

namespace Judgement

section Laws

variable {m : Type → Type} [Monad m] [LawfulMonad m] (J : Judgement m) {α β : Type} {x y : m α} {p : α → Prop}
  {c : Prop} {f : α → m β} {R : α → β → Prop} {l : List α}

theorem mono {q : α → Prop} (h : J.holds x p) (weaker : ∀ a, p a → q a) : J.holds x q := by
  rw [← bind_pure x]
  exact J.bind h fun a => J.pure (weaker a)

theorem cond [Decidable c] (hx : c → J.holds x p) (hy : ¬ c → J.holds y p) : J.holds (if c then x else y) p := by
  split
  · exact hx ‹c›
  · exact hy ‹¬ c›

theorem ite [Decidable c] (hx : J.holds x p) (hy : J.holds y p) : J.holds (if c then x else y) p :=
  J.cond (fun _ => hx) fun _ => hy

theorem mapM_mem (h : ∀ a ∈ l, J.holds (f a) (R a)) : J.holds (l.mapM f) (List.Forall₂ R l) := by
  induction l with
  | nil => exact J.pure .nil
  | cons a l ih =>
    rw [List.mapM_cons]
    refine J.bind (h a List.mem_cons_self) fun b =>
      J.bind (ih fun a member => h a (List.mem_cons_of_mem _ member)) fun bs => J.pure ?_
    intro rest first
    exact .cons first rest

theorem mapM (h : ∀ a, J.holds (f a) (R a)) (l : List α) : J.holds (l.mapM f) (List.Forall₂ R l) :=
  J.mapM_mem fun a _ => h a

end Laws

section Kinds

variable {ε σ O α β : Type} {p : α → Prop} {x : Except ε α} {q r : β → Prop} {f : α → StateT σ (Except ε) β}
  {seen : σ → O → Prop} {final : O → Prop} {e : ε} {I : σ → Prop}

protected def id : Judgement Id where
  holds x p := p x.run
  pure h := h
  bind h hf := hf _ h
  and hp hq := ⟨hp, hq⟩

/-- Computations that return or fail. -/
def returns : Judgement (Except ε) where
  holds x p := ∀ a, x = .ok a → p a
  pure h a := by rintro ⟨⟩; exact h
  bind {α β x f p q} h hf b returned := by
    cases x with
    | error e => cases returned
    | ok a => exact hf a b returned (h a rfl)
  and hp hq a returned := ⟨hp a returned, hq a returned⟩

theorem returns_bind {f : α → Except ε β}
    (h : returns.holds x p) (hf : ∀ a, p a → returns.holds (f a) q) : returns.holds (x >>= f) q := by
  intro b returned
  cases x with
  | error e => cases returned
  | ok a => exact hf a (h a rfl) b returned

theorem returns_seq {f : α → Except ε β} (hf : ∀ a, returns.holds (f a) q) : returns.holds (x >>= f) q := by
  have anything : returns.holds x fun _ => True := fun _ _ => trivial
  exact returns_bind anything fun a _ => hf a

theorem returns_foldlM {f : β → α → Except ε β} {p : β → Prop} (step : ∀ b a, p b → returns.holds (f b a) p) :
    ∀ (as : List α) (b : β), p b → returns.holds (as.foldlM f b) p
  | [], _, start => returns.pure start
  | a :: as, b, start => by
    rw [List.foldlM_cons]
    exact returns_bind (step b a start) (returns_foldlM step as)

/-- Computations with a state that return or fail, whatever the state. -/
def always : Judgement (StateT σ (Except ε)) where
  holds x p := ∀ s a s', x s = .ok (a, s') → p a
  pure h s a s' := by rintro ⟨⟩; exact h
  bind {α β x f p q} h hf s b s' returned := by
    change (x s >>= fun r => f r.1 r.2) = .ok (b, s') at returned
    cases first : x s with
    | error e => rw [first] at returned; cases returned
    | ok r =>
      rw [first] at returned
      exact hf r.1 r.2 b s' returned (h s r.1 r.2 first)
  and hp hq s a s' returned := ⟨hp s a s' returned, hq s a s' returned⟩

theorem always_bind {x : StateT σ (Except ε) α} (h : ∀ a, always.holds (f a) q) : always.holds (x >>= f) q := by
  have anything : always.holds x fun _ => True := fun _ _ _ _ => trivial
  exact always.bind anything fun a => always.mono (h a) fun _ hb _ => hb

theorem always_lift : always.holds (liftM x : StateT σ (Except ε) α) fun a => x = .ok a := by
  intro s a s' returned
  cases x with
  | error e => cases returned
  | ok b => cases returned; rfl

/-- Computations that keep an invariant of their state. -/
def keeping {m : Type → Type} [Monad m] [LawfulMonad m] (J : Judgement m) (I : σ → Prop) : Judgement (StateT σ m) where
  holds x p := ∀ s, J.holds (x s) fun r => I s → I r.2 ∧ p r.1
  pure h s := J.pure fun hs => ⟨hs, h⟩
  bind {α β x f p q} h hf s := by
    refine J.bind (h s) fun r => J.mono (hf r.1 r.2) ?_
    intro result next first hs
    obtain ⟨hs, ha⟩ := first hs
    obtain ⟨hs, hb⟩ := next hs
    exact ⟨hs, hb ha⟩
  and hp hq s := by
    refine J.mono (J.and (hp s) (hq s)) ?_
    rintro result ⟨first, second⟩ hs
    exact ⟨(first hs).1, (first hs).2, (second hs).2⟩

/-- A computation loses none of its records, and its results have a property once all records are among
    the final ones. -/
def Records (seen : σ → O → Prop) (final : O → Prop) (x : StateT σ (Except ε) α) (p : α → Prop) : Prop :=
  ∀ s a s', x s = .ok (a, s') → (∀ o, seen s o → seen s' o) ∧ ((∀ o, seen s' o → final o) → p a)

/-- What the first part always returns may be used to judge the second. -/
theorem Records.bind {x : StateT σ (Except ε) α} {q : α → Prop} (sure : always.holds x p) (h : Records seen final x q)
    (hf : ∀ a, p a → Records seen final (f a) fun b => q a → r b) : Records seen final (x >>= f) r := by
  intro s b s' returned
  change (x s >>= fun y => f y.1 y.2) = .ok (b, s') at returned
  cases first : x s with
  | error e => rw [first] at returned; cases returned
  | ok y =>
    rw [first] at returned
    obtain ⟨kept, ha⟩ := h s y.1 y.2 first
    obtain ⟨kept', hb⟩ := hf y.1 (sure s y.1 y.2 first) y.2 b s' returned
    refine ⟨fun o ho => kept' o (kept o ho), fun all => hb all (ha ?_)⟩
    exact fun o ho => all o (kept' o ho)

/-- Computations that record observations in their state and lose none. Results are judged against all
    that is recorded in the end. -/
def recording (seen : σ → O → Prop) (final : O → Prop) : Judgement (StateT σ (Except ε)) where
  holds := Records seen final
  pure h s a s' := by
    rintro ⟨⟩
    exact ⟨fun _ h => h, fun _ => h⟩
  bind h hf := Records.bind (fun _ _ _ _ => trivial) h fun a (_ : True) => hf a
  and hp hq s a s' returned := by
    obtain ⟨kept, first⟩ := hp s a s' returned
    obtain ⟨_, second⟩ := hq s a s' returned
    exact ⟨kept, fun all => ⟨first all, second all⟩⟩

/-- What is judged against all records holds of the computation's own records. -/
theorem recording_run {x : StateT σ (Except ε) α} {s s' : σ} {a : α} {p : (O → Prop) → α → Prop}
    (h : ∀ final, (recording seen final).holds x (p final)) (returned : x s = .ok (a, s')) : p (seen s') a :=
  (h (seen s') s a s' returned).2 fun _ ho => ho

theorem recording_modify {f : σ → σ} {p : PUnit → Prop} (keeps : ∀ s o, seen s o → seen (f s) o)
    (h : ∀ s, (∀ o, seen (f s) o → final o) → p ⟨⟩) : (recording (ε := ε) seen final).holds (modify f) p := by
  rintro s a s' ⟨⟩
  exact ⟨keeps s, h s⟩

theorem recording_lift : (recording seen final).holds (liftM x : StateT σ (Except ε) α) fun a => x = .ok a := by
  intro s a s' returned
  have same := always_lift s a s' returned
  subst same
  cases returned
  exact ⟨fun _ ho => ho, fun _ => rfl⟩

theorem recording_throw : (recording seen final).holds (throw e : StateT σ (Except ε) α) p := by
  intro s a s' returned
  cases returned

theorem returns_throw : returns.holds (throw e : Except ε α) p := by
  intro a returned
  cases returned

variable {m : Type → Type} [Monad m] [LawfulMonad m] {J : Judgement m}

theorem keeping_modify {f : σ → σ} (keeps : ∀ s, I s → I (f s)) : (J.keeping I).holds (modify f) fun _ => True :=
  fun s => J.pure fun hs => ⟨keeps s hs, trivial⟩

variable {x : m α} {f : α → StateT σ m β}

theorem keeping_lift (h : J.holds x p) : (J.keeping I).holds (liftM x : StateT σ m α) p :=
  fun _ => J.bind h fun _ => J.pure fun ha hs => ⟨hs, ha⟩

theorem lift_bind {s : σ} {q : β × σ → Prop} (h : J.holds x p) (hf : ∀ a, J.holds (f a s) fun r => p a → q r) :
    J.holds ((liftM x >>= f : StateT σ m β) s) q := by
  change J.holds ((x >>= fun a => Pure.pure (a, s)) >>= fun r => f r.1 r.2) _
  rw [bind_assoc]
  simp only [pure_bind]
  exact J.bind h hf

theorem keeping_lift_bind (h : J.holds x p)
    (hf : ∀ a s, J.holds (f a s) fun r => p a → I s → I r.2 ∧ q r.1) : (J.keeping I).holds (liftM x >>= f) q :=
  fun s => lift_bind h fun a => hf a s

end Kinds

end Judgement

end SemanticLayer
