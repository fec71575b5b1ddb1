import SemanticLayer.Proofs.ColumnTypes
import SemanticLayer.Proofs.Depth
import SemanticLayer.Proofs.Recasting

/-! # Functions are renamed and nothing else

Writing the functions of a query as a backend calls them gives the same tree, with other names of functions at
most. Four names have another one in SQLite. Any other name stays as it is written, unless it has capitals
outside ASCII.
-/

namespace SemanticLayer

open List
open Sql (Path Query)

variable {n : Nat}

/-- A computation that only returns. -/
def Sql.Coupling.returned : Coupling Id where
  rel _ y b := y = b
  pure := rfl
  bind {_ _ _ _ _ g b _} first rest := (congrArg g first).trans (rest b)

namespace Text

variable {c : Char} {cs before : List Char} {lo hi step : Nat} {shift : Int}

/-- A text without capitals outside ASCII. -/
def KeepsCase (cs : List Char) : Prop := ∀ c ∈ cs, c.toNat < 128 ∨ lowerChar c = [c]

instance (cs : List Char) : Decidable (KeepsCase cs) := List.decidableBAll _ cs

theorem toLower_of_large (large : 128 ≤ c.toNat) : c.toLower = c := by
  unfold Char.toLower
  split
  · rename_i letter
    have top : c.val.toNat ≤ 90 := UInt32.le_iff_toNat_le.mp letter.2
    change 128 ≤ c.val.toNat at large
    omega
  · rfl

theorem toLower_ascii (ascii : c.toNat < 128) : c.toLower.toNat < 128 ∧ lowerChar c.toLower = [c.toLower] := by
  have all : ∀ n < 128, (Char.ofNat n).toLower.toNat < 128 ∧
      lowerChar (Char.ofNat n).toLower = [(Char.ofNat n).toLower] := by
    decide +kernel
  have result := all c.toNat ascii
  rwa [Char.ofNat_toNat] at result

theorem toLower_toLower (c : Char) : c.toLower.toLower = c.toLower := by
  by_cases ascii : c.toNat < 128
  · obtain ⟨small, fixed⟩ := toLower_ascii ascii
    rw [lowerChar, if_pos small, singleton_inj] at fixed
    exact fixed
  · rw [toLower_of_large (Nat.le_of_not_lt ascii), toLower_of_large (Nat.le_of_not_lt ascii)]

theorem lowerFrom_of_small (small : ∀ c ∈ cs, lowerChar c = [c]) (before : List Char) : lowerFrom before cs = cs := by
  induction cs generalizing before with
  | nil => rfl
  | cons c cs ih =>
    have here := small c mem_cons_self
    have other : c ≠ 'Σ' := by
      rintro rfl
      exact absurd here (by decide +kernel)
    simp [lowerFrom, other, here, ih fun d member => small d (mem_cons_of_mem c member)]

/-- No code of one range, once it has come down, lies in another range. Ranges can share codes if both take every
    second code. -/
def apart (r r' : Nat × Nat × Nat × Int) : Bool :=
  Nat.blt (r.2.1 + r.2.2.2).toNat r'.1 || Nat.blt r'.2.1 (r.1 + r.2.2.2).toNat ||
    ((Nat.beq r.2.2.1 2 || Nat.beq r.1 r.2.1) && Nat.beq r'.2.2.1 2 && Nat.beq (((r.1 + r.2.2.2).toNat + r'.1) % 2) 1)

theorem lowerShifts_apart : (lowerShifts.all fun r => ((304, 304, 2, 0) :: lowerShifts).all (apart r)) = true := by
  decide +kernel

theorem not_inside_of_apart {lo' hi' step' m : Nat} {shift' : Int}
    (separate : apart (lo, hi, step, shift) (lo', hi', step', shift') = true) (low : lo ≤ n) (high : n ≤ hi)
    (even : (n - lo) % step = 0) (large : 128 ≤ lo + shift) (moved : (n + shift).toNat = m) :
    ¬ (lo' ≤ m ∧ m ≤ hi' ∧ (m - lo') % step' = 0) := by
  simp only [apart, Nat.blt_eq, Bool.or_eq_true, Bool.and_eq_true, Nat.beq_eq] at separate
  rintro ⟨low', high', even'⟩
  obtain (below | above) | ⟨⟨rfl | rfl, rfl⟩, odd⟩ := separate <;> omega

/-- A code that comes down within the ranges comes down to a small letter. -/
theorem lowerChar_moved (member : (lo, hi, step, shift) ∈ lowerShifts) (low : lo ≤ n) (high : n ≤ hi)
    (even : (n - lo) % step = 0) : lowerChar (Char.ofNat (n + shift).toNat) = [Char.ofNat (n + shift).toNat] := by
  generalize moved : (n + shift).toNat = m
  by_cases valid : m.isValidChar
  · have same : Char.ofNat m = Char.ofNatAux m valid := dif_pos valid
    have code : (Char.ofNat m).toNat = m := by
      rw [same]
      rfl
    rcases lowerShifts_foreign _ member with large | kelvin
    · have outside (r : Nat × Nat × Nat × Int) (other : r ∈ (304, 304, 2, 0) :: lowerShifts) :=
        not_inside_of_apart (all_eq_true.mp (all_eq_true.mp lowerShifts_apart _ member) r other) low high
          even large moved
      have dotless : Char.ofNat m ≠ 'İ' := by
        intro dotted
        rw [dotted] at code
        exact outside _ mem_cons_self (by rw [← code]; decide)
      unfold lowerChar
      rw [code, if_neg (by dsimp only at large; omega), if_neg dotless]
      split
      · rename_i found
        have inside := find?_some found
        simp only [Bool.and_eq_true, decide_eq_true_eq, beq_iff_eq, and_assoc] at inside
        exact absurd inside (outside _ (mem_cons_of_mem _ (mem_of_find?_eq_some found)))
      · rfl
    · cases kelvin
      obtain rfl : m = 107 := by omega
      decide
  · have none : Char.ofNat m = '\x00' := dif_neg valid
    rw [none]
    decide

theorem lowerChar_small (c : Char) : ∀ d ∈ lowerChar c, lowerChar d = [d] := by
  intro d member
  unfold lowerChar at member
  split at member
  · rename_i ascii
    rw [mem_singleton.mp member]
    exact (toLower_ascii ascii).2
  split at member
  · rcases mem_cons.mp member with rfl | rest
    · decide +kernel
    · rw [mem_singleton.mp rest]
      decide +kernel
  split at member
  · rename_i lo hi step shift found
    have inside := find?_some found
    simp only [Bool.and_eq_true, decide_eq_true_eq, beq_iff_eq] at inside
    obtain ⟨⟨low, high⟩, even⟩ := inside
    rw [mem_singleton.mp member]
    exact lowerChar_moved (mem_of_find?_eq_some found) low high even
  · rename_i none
    rw [mem_singleton.mp member]
    unfold lowerChar
    rw [if_neg ‹_›, if_neg ‹_›, none]

theorem mem_lowerFrom {d : Char} (member : d ∈ lowerFrom before cs) : lowerChar d = [d] := by
  induction cs generalizing before with
  | nil => cases member
  | cons c cs ih =>
    rw [lowerFrom] at member
    rcases mem_append.mp member with here | later
    · split at here
      · split at here <;> rw [mem_singleton.mp here] <;> decide +kernel
      · exact lowerChar_small c d here
    · exact ih later

theorem lower_lower (s : String) : lower (lower s) = lower s := by
  unfold lower
  rw [String.toList_ofList, lowerFrom_of_small fun d member => mem_lowerFrom member]

theorem lowerFrom_keepsCase (keeps : KeepsCase cs) (before : List Char) :
    lowerFrom before cs = cs.map Char.toLower := by
  induction cs generalizing before with
  | nil => rfl
  | cons c cs ih =>
    have later := ih (fun d member => keeps d (mem_cons_of_mem c member)) (c :: before)
    rcases keeps c mem_cons_self with ascii | here
    · have other : c ≠ 'Σ' := by
        rintro rfl
        exact absurd ascii (by decide)
      simp [lowerFrom, other, lowerChar, ascii, later]
    · have other : c ≠ 'Σ' := by
        rintro rfl
        exact absurd here (by decide +kernel)
      by_cases ascii : c.toNat < 128
      · simp [lowerFrom, other, lowerChar, ascii, later]
      · simp [lowerFrom, other, here, later, toLower_of_large (Nat.le_of_not_lt ascii)]

/-- A character that comes down to itself, up to capitals of ASCII, comes down alone. -/
theorem lowerFrom_head (before : List Char) (c : Char) (cs : List Char) : ∃ d ds,
    lowerFrom before (c :: cs) = d :: (ds ++ lowerFrom (c :: before) cs) ∧
      (d.toLower = c.toLower → ds = [] ∧ (c.toNat < 128 ∨ lowerChar c = [c])) := by
  by_cases ascii : c.toNat < 128
  · rcases lowerFrom_cons before c cs with ⟨_, down⟩ | ⟨large, _⟩ | ⟨large, _⟩
    · exact ⟨c.toLower, [], down, fun _ => ⟨rfl, .inl ascii⟩⟩
    all_goals omega
  have large : 128 ≤ c.toNat := Nat.le_of_not_lt ascii
  rw [lowerFrom]
  by_cases sigma : c = 'Σ'
  · rw [if_pos sigma, sigma]
    split
    · exact ⟨'ς', [], rfl, fun same => absurd same (by decide)⟩
    · exact ⟨'σ', [], rfl, fun same => absurd same (by decide)⟩
  rw [if_neg sigma]
  by_cases dotted : c = 'İ'
  · rw [dotted]
    exact ⟨'i', [Char.ofNat 775], rfl, fun same => absurd same (by decide)⟩
  obtain ⟨d, down, _⟩ := lowerChar_foreign large dotted
  rw [down]
  refine ⟨d, [], rfl, fun same => ⟨rfl, .inr ?_⟩⟩
  rw [toLower_of_large large] at same
  by_cases small : d.toNat < 128
  · have := (toLower_ascii small).1
    rw [same] at this
    omega
  · rw [← same, toLower_of_large (Nat.le_of_not_lt small)]

/-- A text keeps its letters, up to capitals of ASCII, exactly if it has no other capitals. -/
theorem map_toLower_lowerFrom (before cs : List Char) :
    (lowerFrom before cs).map Char.toLower = cs.map Char.toLower ↔ KeepsCase cs := by
  constructor
  · intro same
    induction cs generalizing before with
    | nil => exact forall_mem_nil _
    | cons c cs ih =>
      obtain ⟨d, ds, down, alone⟩ := lowerFrom_head before c cs
      rw [down, map_cons, map_cons] at same
      obtain ⟨head, tail⟩ := cons.inj same
      obtain ⟨rfl, here⟩ := alone head
      exact forall_mem_cons.mpr ⟨here, ih _ tail⟩
  · intro keeps
    rw [lowerFrom_keepsCase keeps, map_map]
    exact map_congr_left fun c _ => toLower_toLower c

theorem sameAscii_lower_iff (s : String) : sameAscii (lower s) s = true ↔ KeepsCase s.toList := by
  rw [← map_toLower_lowerFrom []]
  simp [sameAscii, lowerAscii, lower, String.ofList_inj]

/-- A text whose lower case is a word of ASCII without `k` is that word, up to capitals of ASCII. -/
theorem map_toLower_of_plain (plain : ∀ c ∈ lowerFrom before cs, ¬ Foreign c) :
    cs.map Char.toLower = lowerFrom before cs := by
  induction cs generalizing before with
  | nil => rfl
  | cons c cs ih =>
    rcases lowerFrom_cons before c cs with ⟨_, down⟩ | ⟨_, down⟩ | ⟨_, d, foreign, down⟩
    · rw [down] at plain ⊢
      rw [map_cons, ih fun d member => plain d (mem_cons_of_mem _ member)]
    · rw [down] at plain
      exact absurd (ofNat_foreign (by decide)) (plain (Char.ofNat 775) (by simp))
    · rw [down] at plain
      exact absurd foreign (plain d mem_cons_self)

theorem lower_eq_iff {s t : String} (plain : ∀ c ∈ t.toList, ¬ Foreign c) : lower s = t ↔ lowerAscii s = t := by
  constructor
  · rintro rfl
    rw [lower, String.toList_ofList] at plain
    rw [lowerAscii, map_toLower_of_plain plain, lower]
  · rintro rfl
    have keeps : KeepsCase s.toList := fun c member => by
      by_contra! large
      refine plain c.toLower (by simp only [lowerAscii, String.toList_ofList]; exact mem_map_of_mem member) (.inl ?_)
      rw [toLower_of_large large.1]
      exact large.1
    rw [lower, lowerFrom_keepsCase keeps, lowerAscii]

end Text

namespace Backend

variable (b : Backend) {q : Query} {r : Path → Path → Prop}

/-- The functions that a backend has another name for. -/
def renamings : Backend → List (String × String)
  | .postgres => []
  | .sqlite =>
    [("char_length", "length"), ("character_length", "length"), ("strpos", "instr"), ("substring", "substr")]

/-- How a backend writes the name of a function. -/
inductive CallsAs : Path → Path → Prop
  | renamed {part : Sql.Ident} {old new : String} :
    (old, new) ∈ b.renamings → Text.lowerAscii part.value = old → CallsAs [part] [{ value := new }]
  | kept {part : Sql.Ident} : (∀ pair ∈ b.renamings, Text.lowerAscii part.value ≠ pair.1) →
    Text.KeepsCase part.value.toList → CallsAs [part] [part]
  /-- A name with capitals outside ASCII loses them, and its quotes. -/
  | lowered {part : Sql.Ident} : ¬ Text.KeepsCase part.value.toList →
    CallsAs [part] [{ value := Text.lower part.value }]
  | dotted {name : Path} : name.length ≠ 1 → CallsAs name name

theorem functionName_cases (name : String) : (∃ new, (name, new) ∈ b.renamings ∧ b.functionName name = new) ∨
      (∀ pair ∈ b.renamings, name ≠ pair.1) ∧ b.functionName name = name := by
  cases b with
  | postgres => exact .inr ⟨by simp [renamings], rfl⟩
  | sqlite =>
    by_cases known : name = "char_length" ∨ name = "character_length" ∨ name = "strpos" ∨ name = "substring"
    · refine .inl ⟨_, ?_, rfl⟩
      rcases known with rfl | rfl | rfl | rfl <;> decide
    · refine .inr ⟨by simp_all [renamings], ?_⟩
      unfold functionName
      split <;> simp_all

/-- The renamed functions are words of ASCII without `k`, and their new names stay. -/
theorem renamings_plain : ∀ pair ∈ b.renamings, (∀ c ∈ pair.1.toList, ¬ Text.Foreign c) ∧
    Text.lowerAscii pair.2 ≠ pair.1 ∧ b.renameFunction [{ value := pair.2 }] = [{ value := pair.2 }] := by
  cases b with
  | postgres => exact forall_mem_nil _
  | sqlite =>
    have plain : ∀ pair ∈ renamings .sqlite, ∀ c ∈ pair.1.toList, ¬ Text.Foreign c := by
      simp [renamings, Text.Foreign]
    have stays : ∀ pair ∈ renamings .sqlite, Text.lowerAscii pair.2 ≠ pair.1 ∧
        sqlite.renameFunction [{ value := pair.2 }] = [{ value := pair.2 }] := by
      decide +kernel
    exact fun pair member => ⟨plain pair member, stays pair member⟩

/-- A single name has another one in the backend, or it stays unless it has capitals outside ASCII. -/
theorem renameFunction_cases (part : Sql.Ident) :
    (∃ new, (Text.lowerAscii part.value, new) ∈ b.renamings ∧ b.renameFunction [part] = [{ value := new }]) ∨
      (∀ pair ∈ b.renamings, Text.lower part.value ≠ pair.1) ∧ b.renameFunction [part] =
        if Text.KeepsCase part.value.toList then [part] else [{ value := Text.lower part.value }] := by
  rcases b.functionName_cases (Text.lower part.value) with ⟨new, member, mapped⟩ | ⟨other, mapped⟩
  · obtain ⟨plain, apart, -⟩ := b.renamings_plain _ member
    have same := (Text.lower_eq_iff plain).mp rfl
    have differs : Text.sameAscii new part.value = false := by simp [Text.sameAscii, same, apart]
    exact .inl ⟨new, same ▸ member, by simp [renameFunction, mapped, differs]⟩
  · refine .inr ⟨other, ?_⟩
    simp [renameFunction, mapped, Text.sameAscii_lower_iff]

theorem renameFunction_of_length {name : Path} (dotted : name.length ≠ 1) : b.renameFunction name = name := by
  unfold renameFunction
  split
  · exact absurd rfl dotted
  · rfl

theorem renameFunction_callsAs (name : Path) : b.CallsAs name (b.renameFunction name) := by
  by_cases single : name.length = 1
  · obtain ⟨part, rfl⟩ := List.length_eq_one_iff.mp single
    rcases b.renameFunction_cases part with ⟨new, member, result⟩ | ⟨other, result⟩
    · rw [result]
      exact .renamed member rfl
    · rw [result]
      split
      · refine .kept (fun pair member same => other pair member ?_) ‹_›
        exact (Text.lower_eq_iff (b.renamings_plain pair member).1).mpr same
      · exact .lowered ‹_›
  · rw [b.renameFunction_of_length single]
    exact .dotted single

theorem renameFunction_fixed (name : Path) : b.renameFunction (b.renameFunction name) = b.renameFunction name := by
  by_cases single : name.length = 1
  · obtain ⟨part, rfl⟩ := List.length_eq_one_iff.mp single
    rcases b.renameFunction_cases part with ⟨new, member, result⟩ | ⟨other, result⟩
    · rw [result]
      exact (b.renamings_plain _ member).2.2
    · split at result
      · rw [result, result]
      · rw [result]
        rcases b.renameFunction_cases { value := Text.lower part.value } with ⟨new, member, _⟩ | ⟨_, again⟩
        · have same := (Text.lower_eq_iff (b.renamings_plain _ member).1).mpr rfl
          rw [Text.lower_lower] at same
          exact absurd same (other _ member)
        · rw [again, Text.lower_lower, ite_self]
  · rw [b.renameFunction_of_length single, b.renameFunction_of_length single]

theorem renameFunctions_eq (deep : q.height ≤ n) :
    b.renameFunctions q = Id.run (q.editAt { Sql.Edit.keep Id with call := b.renameFunction } n) := by
  rw [Sql.Query.editAt_eq_edit _ n q deep]
  rfl

theorem renameFunctions_recast (named : ∀ name, r name (b.renameFunction name))
    (deep : q.height ≤ n) : q.RecastAt Eq r n (b.renameFunctions q) := by
  rw [b.renameFunctions_eq deep]
  refine Sql.Query.editAt_recast rfl (fun visits => ?_) n q
  exact ⟨fun _ => rfl, fun name => ⟨name, rfl, rfl⟩, named, visits⟩

/-- A query in which all functions have the names that a backend calls them by stays. -/
theorem renameFunctions_fixed (named : ∀ {name name'}, r name name' → b.renameFunction name' = name')
    {q' : Query} (deep : q'.height ≤ n) (recast : q.RecastAt Eq r n q') : b.renameFunctions q' = q' := by
  rw [b.renameFunctions_eq deep]
  refine recast.coupled (C := .returned) (e := { Sql.Edit.keep Id with call := b.renameFunction }) rfl fun visits => ?_
  exact ⟨fun _ => rfl, fun _ => rfl, named, visits⟩

/-- Writing the functions of a query as a backend calls them changes nothing but names of functions, each as the
    backend calls it, and changes nothing more the second time. PostgreSQL keeps a query unless the name of
    a function in it has a capital outside ASCII. -/
theorem functions_renamed (q : Query) : q.Recast Eq b.CallsAs (b.renameFunctions q) ∧
    b.renameFunctions (b.renameFunctions q) = b.renameFunctions q ∧
    (q.Recast Eq (fun name name' => name' = name ∧ ∀ part, name = [part] → Text.KeepsCase part.value.toList) q →
      Backend.postgres.renameFunctions q = q) := by
  refine ⟨b.renameFunctions_recast b.renameFunction_callsAs (Nat.le_refl _), ?_, fun plain => ?_⟩
  · -- Both rounds go as deep as the deeper of the two queries.
    have recast := b.renameFunctions_recast (r := fun _ name => b.renameFunction name = name) b.renameFunction_fixed
      (Nat.le_max_left q.height (b.renameFunctions q).height)
    exact b.renameFunctions_fixed id (Nat.le_max_right _ _) recast
  · refine postgres.renameFunctions_fixed (fun {name name'} related => ?_) (Nat.le_refl _) plain
    obtain ⟨rfl, keeps⟩ := related
    have called := Backend.postgres.renameFunction_callsAs name'
    generalize postgres.renameFunction name' = written at called
    cases called with
    | renamed member => cases member
    | kept | dotted => rfl
    | lowered capital => exact absurd (keeps _ rfl) capital

def strposQuery : Query where
  body := .select { items := [.expr (.call [⟨"StrPos", none⟩] [.hole 0] [.ident ⟨"n", none⟩])] }

theorem strpos_kept :
    strposQuery.Recast Eq (fun name name' => name' = name ∧ ∀ part, name = [part] → Text.KeepsCase part.value.toList)
      strposQuery ∧ postgres.renameFunctions strposQuery = strposQuery := by
  have plain : strposQuery.Recast Eq
      (fun name name' => name' = name ∧ ∀ part, name = [part] → Text.KeepsCase part.value.toList) strposQuery := by
    obtain ⟨n, height⟩ := Query.exists_succ (Nat.le_refl strposQuery.height)
    rw [Query.Recast, height]
    have empty {c : Sql.Recasting Query} : Sql.Expr.empty.Recast c Sql.Expr.empty := .form .nil
    refine ⟨rfl, .nil, .select ⟨empty, .cons (.expr (.call ⟨rfl, ?_⟩ (.cons (.ident _) .nil))) .nil, rfl, .nil, empty,
      .none, .exprs .nil, empty, .none, empty, .none, empty⟩, .nil, .none, empty⟩
    rintro part ⟨⟩
    decide
  exact ⟨plain, (functions_renamed .postgres strposQuery).2.2 plain⟩

end Backend

end SemanticLayer
