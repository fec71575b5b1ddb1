import Mathlib.Data.List.DropRight
import SemanticLayer.Json.Printer
import SemanticLayer.Json.Reader

/-! # The pretty form is read back

Reading undoes writing for every value without numbers, whatever its strings hold.
-/

namespace SemanticLayer.Json

open List

variable {c : Char} {n : Nat} {cs rest after final : List Char} {item value j : Json} {items : List Json}
  {members : List (String × Json)}

/-- A value that holds no number and no broken string. -/
inductive Numberless : Json → Prop where
  | null : Numberless .null
  | bool (b : Bool) : Numberless (.bool b)
  | string (s : String) : Numberless (.string s)
  | array {items : List Json} (all : ∀ item ∈ items, item.Numberless) : Numberless (.array items)
  | object {members : List (String × Json)} (all : ∀ member ∈ members, member.2.Numberless) :
      Numberless (.object members)

/-! ## Strings -/

section Strings

variable (n : Nat) (rest : List Char)

theorem hexValue_hexDigit : ∀ d < 16, hexValue? (hexDigit d) = some d := by
  decide

theorem hexWord_control {d : Nat} (control : d < 32) :
    hexWord? '0' '0' (hexDigit (d / 16)) (hexDigit (d % 16)) = some d := by
  have high := hexValue_hexDigit (d / 16) (by omega)
  have low := hexValue_hexDigit (d % 16) (by omega)
  have zero : hexValue? '0' = some 0 := by decide
  simp only [hexWord?, high, low, zero, Option.bind_eq_bind, Option.bind_some, Option.pure_def, Option.some.injEq]
  omega

theorem stringRest_simple {letter : Char} (notCode : letter ≠ 'u') (escape : simpleEscape? letter = some c) :
    stringRest (n + 1) ('\\' :: letter :: rest) = (stringRest n rest).map fun (s, r) => (s.map (c :: ·), r) := by
  have notQuote : '\\' ≠ '"' := by decide
  rw [stringRest, if_neg notQuote, if_pos rfl, escape]
  · change (stringRest n rest).map _ = _
    rcases stringRest n rest with _ | ⟨_ | _, _⟩ <;> rfl
  · intro _ _ _ _ _ code
    exact absurd code notCode

theorem stringRest_control (control : c.toNat < 32) :
    stringRest (n + 1) ('\\' :: 'u' :: '0' :: '0' :: hexDigit (c.toNat / 16) :: hexDigit (c.toNat % 16) :: rest) =
      (stringRest n rest).map fun (s, r) => (s.map (c :: ·), r) := by
  have notHigh : ¬ 0xD800 ≤ c.toNat := by omega
  have notLow : ¬ 0xDC00 ≤ c.toNat := by omega
  simp [stringRest, hexWord_control control, notHigh, notLow]
  rcases stringRest n rest with _ | ⟨_ | _, _⟩ <;> rfl

theorem stringRest_plain (notQuote : c ≠ '"') (notEscape : c ≠ '\\') (shown : ¬ c.toNat < 32) :
    stringRest (n + 1) (c :: rest) = (stringRest n rest).map fun (s, r) => (s.map (c :: ·), r) := by
  simp [stringRest, notQuote, notEscape, shown]
  rcases stringRest n rest with _ | ⟨_ | _, _⟩ <;> rfl

theorem stringRest_escapeChar (c : Char) :
    stringRest (n + 1) (escapeChar c ++ rest) = (stringRest n rest).map fun (s, r) => (s.map (c :: ·), r) := by
  unfold escapeChar
  split
  case h_6 notQuote notEscape _ _ _ =>
    split
    · rename_i code
      have : c = Char.ofNat 8 := by rw [← code, Char.ofNat_toNat]
      exact stringRest_simple n rest (by decide) (this ▸ rfl)
    · split
      · rename_i code
        have : c = Char.ofNat 12 := by rw [← code, Char.ofNat_toNat]
        exact stringRest_simple n rest (by decide) (this ▸ rfl)
      · split
        · rename_i control
          exact stringRest_control n rest control
        · rename_i shown
          exact stringRest_plain n rest notQuote notEscape shown
  all_goals exact stringRest_simple n rest (by decide) rfl

theorem stringRest_quoted (cs : List Char) {n : Nat} (enough : cs.length < n) :
    stringRest n (cs.flatMap escapeChar ++ '"' :: rest) = some (some cs, rest) := by
  induction cs generalizing n with
  | nil =>
    obtain ⟨n, rfl⟩ : ∃ k, n = k + 1 := ⟨n - 1, by omega⟩
    simp [stringRest]
  | cons c cs ih =>
    obtain ⟨n, rfl⟩ : ∃ k, n = k + 1 := ⟨n - 1, by omega⟩
    rw [flatMap_cons, append_assoc, stringRest_escapeChar, ih (by simpa using enough)]
    rfl

theorem escapeChar_length_pos (c : Char) : 0 < (escapeChar c).length := by
  unfold escapeChar
  repeat' split
  all_goals exact Nat.succ_pos _

theorem length_le_flatMap_escapeChar (cs : List Char) : cs.length ≤ (cs.flatMap escapeChar).length := by
  induction cs with
  | nil => exact Nat.le_refl 0
  | cons c cs ih =>
    have := escapeChar_length_pos c
    simp only [flatMap_cons, length_append, length_cons]
    omega

theorem stringChars_quoted (s : String) :
    stringChars? (s.toList.flatMap escapeChar ++ '"' :: rest) = some (some s.toList, rest) := by
  apply stringRest_quoted
  have := length_le_flatMap_escapeChar s.toList
  simp only [length_append, length_cons]
  omega

end Strings

/-! ## Values -/

theorem skip_newLine (level : Nat) (cs : List Char) : skip (newLine level ++ cs) = skip cs := by
  have blanks : ∀ n, skip (replicate n ' ' ++ cs) = skip cs := by
    intro n
    induction n with
    | zero => rfl
    | succ n ih => simpa [skip, isBlank, replicate_succ] using ih
  simpa [newLine, skip, isBlank] using blanks (2 * level)

theorem skip_cons (solid : isBlank c = false) (cs : List Char) : skip (c :: cs) = c :: cs := by
  simp [skip, solid]

theorem skip_skip (cs : List Char) : skip (skip cs) = skip cs :=
  dropWhile_idempotent _ cs

theorem readValue_skip (n : Nat) (cs : List Char) : readValue n (skip cs) = readValue n cs := by
  cases n with
  | zero => rfl
  | succ n => simp only [readValue, skip_skip]

theorem readItems_skip (n : Nat) (cs : List Char) : readItems n (skip cs) = readItems n cs := by
  cases n with
  | zero => rfl
  | succ n => simp only [readItems, readValue_skip]

theorem readMembers_skip (n : Nat) (cs : List Char) : readMembers n (skip cs) = readMembers n cs := by
  cases n with
  | zero => rfl
  | succ n => simp only [readMembers, skip_skip]

theorem readItems_newLine (n level : Nat) (cs : List Char) : readItems n (newLine level ++ cs) = readItems n cs := by
  rw [← readItems_skip, skip_newLine, readItems_skip]

theorem readMembers_newLine (n level : Nat) (cs : List Char) :
    readMembers n (newLine level ++ cs) = readMembers n cs := by
  rw [← readMembers_skip, skip_newLine, readMembers_skip]

theorem readValue_blank (n : Nat) (cs : List Char) : readValue n (' ' :: cs) = readValue n cs := by
  have : skip (' ' :: cs) = skip cs := by simp [skip, isBlank]
  rw [← readValue_skip, this, readValue_skip]

/-- A value is read from its pretty form, however it is indented and whatever follows. -/
def ReadBack (j : Json) : Prop :=
  ∀ level n rest, (j.prettyChars level).length ≤ n → readValue (n + 1) (j.prettyChars level ++ rest) = some (j, rest)

theorem readItems_last (read : readValue n cs = some (item, rest)) (stop : skip rest = ']' :: after) :
    readItems (n + 1) cs = some ([item], after) := by
  simp [readItems, read, stop]

theorem readItems_more (read : readValue n cs = some (item, rest)) (go : skip rest = ',' :: after)
    (later : readItems n after = some (items, final)) : readItems (n + 1) cs = some (item :: items, final) := by
  simp [readItems, read, go, later]

theorem readItems_pretty (all : ∀ j ∈ item :: items, j.ReadBack) (level : Nat) (rest : List Char)
    (enough : (item.prettyChars (level + 1)).length + (prettyChars.prettyItems level items).length ≤ n) :
    readItems (n + 2) (item.prettyChars (level + 1) ++ (prettyChars.prettyItems level items ++
      (newLine level ++ ']' :: rest))) = some (item :: items, rest) := by
  have first := all item mem_cons_self (level + 1) n
    (prettyChars.prettyItems level items ++ (newLine level ++ ']' :: rest)) (by omega)
  induction items generalizing item n with
  | nil =>
    apply readItems_last first
    simp [prettyChars.prettyItems, skip_newLine, skip_cons (show isBlank ']' = false by decide)]
  | cons next items ih =>
    -- The comma pays for the step to the next item.
    simp only [prettyChars.prettyItems, length_cons, length_append] at enough
    obtain ⟨n, rfl⟩ : ∃ k, n = k + 1 := ⟨n - 1, by omega⟩
    have others := fun j (member : j ∈ next :: items) => all j (mem_cons_of_mem _ member)
    have later := ih others (n := n) (by omega) (others next mem_cons_self _ _ _ (by omega))
    apply readItems_more first
    · simp only [prettyChars.prettyItems, cons_append]
      exact skip_cons (by decide) _
    · simpa [readItems_newLine] using later

theorem readMembers_last (name : String)
    (read : readValue n cs = some (value, rest)) (stop : skip rest = '\x7d' :: after) :
    readMembers (n + 1) (quoteChars name ++ ':' :: ' ' :: cs) = some ([(name, value)], after) := by
  simp [readMembers, quoteChars, skip_cons (show isBlank '"' = false by decide), stringChars_quoted,
    skip_cons (show isBlank ':' = false by decide), readValue_blank, read, stop]

theorem readMembers_more (name : String) (read : readValue n cs = some (value, rest)) (go : skip rest = ',' :: after)
    (later : readMembers n after = some (members, final)) :
    readMembers (n + 1) (quoteChars name ++ ':' :: ' ' :: cs) = some ((name, value) :: members, final) := by
  simp [readMembers, quoteChars, skip_cons (show isBlank '"' = false by decide), stringChars_quoted,
    skip_cons (show isBlank ':' = false by decide), readValue_blank, read, go, later]

theorem readMembers_pretty {name : String} (all : ∀ member ∈ (name, value) :: members, member.2.ReadBack) (level : Nat)
    (rest : List Char)
    (enough : (value.prettyChars (level + 1)).length + (prettyChars.prettyMembers level members).length ≤ n) :
    readMembers (n + 2) (quoteChars name ++ ':' :: ' ' :: (value.prettyChars (level + 1) ++
      (prettyChars.prettyMembers level members ++ (newLine level ++ '\x7d' :: rest)))) =
        some ((name, value) :: members, rest) := by
  have back : value.ReadBack := all _ mem_cons_self
  have first := back (level + 1) n
    (prettyChars.prettyMembers level members ++ (newLine level ++ '\x7d' :: rest)) (by omega)
  induction members generalizing name value n with
  | nil =>
    apply readMembers_last name first
    simp [prettyChars.prettyMembers, skip_newLine, skip_cons (show isBlank '\x7d' = false by decide)]
  | cons next members ih =>
    obtain ⟨nextName, nextValue⟩ := next
    simp only [prettyChars.prettyMembers, length_cons, length_append] at enough
    obtain ⟨n, rfl⟩ : ∃ k, n = k + 1 := ⟨n - 1, by omega⟩
    have others := fun member (among : member ∈ _) => all member (mem_cons_of_mem _ among)
    have nextBack : nextValue.ReadBack := others _ mem_cons_self
    have later := ih others (n := n) (by omega) nextBack (nextBack _ _ _ (by omega))
    apply readMembers_more name first
    · simp only [prettyChars.prettyMembers, cons_append]
      exact skip_cons (by decide) _
    · simpa [readMembers_newLine] using later

theorem readValue_items
    (start : skip rest = c :: cs) (more : c ≠ ']') (read : readItems n (c :: cs) = some (items, after)) :
    readValue (n + 1) ('[' :: rest) = some (.array items, after) := by
  simp [readValue, skip_cons (show isBlank '[' = false by decide), start, more, read]

theorem readValue_members (start : skip rest = '"' :: cs) (read : readMembers n ('"' :: cs) = some (members, after)) :
    readValue (n + 1) ('\x7b' :: rest) = some (.object members, after) := by
  simp [readValue, skip_cons (show isBlank '\x7b' = false by decide), start, read]

namespace Numberless

theorem starts (plain : j.Numberless) (level : Nat) :
    ∃ c cs, j.prettyChars level = c :: cs ∧ isBlank c = false ∧ c ≠ ']' := by
  cases plain with
  | null => exact ⟨_, _, rfl, by decide⟩
  | bool b => cases b <;> exact ⟨_, _, rfl, by decide⟩
  | string s => exact ⟨_, _, rfl, by decide⟩
  | @array items all =>
    cases items with
    | nil => exact ⟨_, _, rfl, by decide⟩
    | cons => exact ⟨_, _, by rw [prettyChars], by decide⟩
  | @object members all => cases members <;> exact ⟨_, _, by rw [prettyChars], by decide⟩

/-- Every value without numbers is read from its pretty form. -/
theorem readBack (plain : j.Numberless) : j.ReadBack := by
  induction plain with
  | null =>
    intro level n rest enough
    rfl
  | bool b =>
    intro level n rest enough
    cases b <;> rfl
  | string s =>
    intro level n rest enough
    simp [readValue, prettyChars, quoteChars, skip_cons (show isBlank '"' = false by decide), stringChars_quoted]
  | @array items all ih =>
    intro level n rest enough
    cases items with
    | nil => rfl
    | cons item items =>
      -- The bracket and the line break pay for the steps to the first item.
      simp only [prettyChars, length_cons, length_append, newLine] at enough
      obtain ⟨n, rfl⟩ : ∃ k, n = k + 2 := ⟨n - 2, by omega⟩
      have read := readItems_pretty ih level (n := n) rest (by omega)
      obtain ⟨c, cs, start, solid, more⟩ := (all item mem_cons_self).starts (level + 1)
      simp only [prettyChars, start, append_assoc, cons_append, nil_append] at read ⊢
      exact readValue_items (by rw [skip_newLine, skip_cons solid]) more read
  | @object members all ih =>
    intro level n rest enough
    cases members with
    | nil => rfl
    | cons member members =>
      obtain ⟨name, value⟩ := member
      simp only [prettyChars, length_cons, length_append, newLine] at enough
      obtain ⟨n, rfl⟩ : ∃ k, n = k + 2 := ⟨n - 2, by omega⟩
      have read := readMembers_pretty ih level (n := n) rest (by omega)
      simp only [prettyChars, quoteChars, append_assoc, cons_append, nil_append] at read ⊢
      exact readValue_members (by rw [skip_newLine, skip_cons (by decide)]) read

end Numberless

theorem read_pretty (plain : j.Numberless) : read? j.pretty = some j := by
  have back := plain.readBack 0 (2 * (j.prettyChars 0).length + 1) [] (by omega)
  rw [append_nil] at back
  simp [read?, pretty, back, skip]

end SemanticLayer.Json
