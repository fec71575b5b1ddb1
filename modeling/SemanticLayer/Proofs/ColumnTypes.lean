import Mathlib.Data.List.Infix
import SemanticLayer.Store.Compare

/-! # Types of columns

A local table declares a column by the name of its type at the source. Names of PostgreSQL types come first, so
a few names that a SQLite source takes for numeric ones are declared as text. Every other name keeps what the
source keeps. Main statement: `Affinity.ofTypeName_cases`.
-/

namespace SemanticLayer

open List

namespace Text

variable {c : Char}

theorem occursInChars_iff {part whole : List Char} : occursInChars part whole = true ↔ part <:+: whole := by
  induction whole with
  | nil => simp [occursInChars]
  | cons c rest ih => simp [occursInChars, ih, infix_cons_iff]

section Lower

variable {word : List Char}

/-- No word of small letters other than `k` holds such a character. -/
def Foreign (c : Char) : Prop := 128 ≤ c.toNat ∨ c = 'k' ∨ c = '\x00'

theorem ofNat_foreign {n : Nat} (large : 128 ≤ n) : Foreign (Char.ofNat n) := by
  by_cases valid : n.isValidChar
  · have same : Char.ofNat n = Char.ofNatAux n valid := dif_pos valid
    rw [same]
    exact .inl large
  · exact .inr (.inr (dif_neg valid))

/-- Outside ASCII only the Kelvin sign comes down to a letter of ASCII. -/
theorem lowerShifts_foreign : ∀ r ∈ lowerShifts, (128 : Int) ≤ r.1 + r.2.2.2 ∨ r = (8490, 8490, 1, -8383) := by
  decide +kernel

theorem lowerChar_foreign (large : 128 ≤ c.toNat) (other : c ≠ 'İ') : ∃ d, lowerChar c = [d] ∧ Foreign d := by
  unfold lowerChar
  rw [if_neg (by omega), if_neg other]
  split
  · rename_i lo hi step shift found
    have inside := find?_some found
    simp only [Bool.and_eq_true, decide_eq_true_eq] at inside
    refine ⟨_, rfl, ?_⟩
    rcases lowerShifts_foreign _ (mem_of_find?_eq_some found) with shifted | kelvin
    · exact ofNat_foreign (by dsimp only at shifted; omega)
    · cases kelvin
      have same : c.toNat = 8490 := by omega
      rw [same]
      exact .inr (.inl rfl)
  · exact ⟨c, rfl, .inl large⟩

/-- A word of small letters that can stand in the name of a type. An `i` at its end could be the first part of `İ`. -/
structure IsWord (word : List Char) : Prop where
  letters : ∀ c ∈ word, c.isLower = true ∧ c ≠ 'k'
  last : word.getLast? ≠ some 'i'

instance (word : List Char) : Decidable (IsWord word) :=
  decidable_of_iff ((word.all fun c => c.isLower && c != 'k') = true ∧ word.getLast? ≠ some 'i')
    ⟨fun h => ⟨by simpa using h.1, h.2⟩, fun h => ⟨by simpa using h.letters, h.last⟩⟩

theorem IsWord.tail (isWord : IsWord (c :: word)) : IsWord word := by
  refine ⟨fun d member => isWord.letters d (mem_cons_of_mem _ member), fun last => isWord.last ?_⟩
  rw [getLast?_cons, last]
  rfl

theorem toNat_of_isLower (lower : c.isLower = true) : c.toNat < 128 := by
  have bounds : (decide (97 ≤ c.val) && decide (c.val ≤ 122)) = true := lower
  rw [Bool.and_eq_true, decide_eq_true_eq, decide_eq_true_eq] at bounds
  have top : c.val.toNat ≤ 122 := UInt32.le_iff_toNat_le.mp bounds.2
  exact Nat.lt_of_le_of_lt top (by decide)

theorem not_foreign (letter : c.isLower = true ∧ c ≠ 'k') : ¬ Foreign c := by
  obtain ⟨lower, other⟩ := letter
  have ascii := toNat_of_isLower lower
  rintro (large | rfl | rfl)
  · omega
  · exact other rfl
  · cases lower

/-- In ASCII it makes no difference whether letters are compared as small or as capital ones. -/
theorem eq_toLower_iff {w : Char} (lower : w.isLower = true) (ascii : c.toNat < 128) :
    w = c.toLower ↔ w.toUpper = c.toUpper := by
  have all : ∀ n < 128, (Char.ofNat n).toLower.toUpper = (Char.ofNat n).toUpper ∧
      (Char.ofNat n).toUpper.toLower = (Char.ofNat n).toLower ∧
      ((Char.ofNat n).isLower = true → (Char.ofNat n).toLower = Char.ofNat n) := by
    decide +kernel
  obtain ⟨up, down, _⟩ := all c.toNat ascii
  obtain ⟨_, own, small⟩ := all w.toNat (toNat_of_isLower lower)
  rw [Char.ofNat_toNat] at up down own small
  constructor
  · rintro rfl
    exact up
  · intro same
    rw [← small lower, ← own, same, down]

theorem toUpper_of_large (large : 128 ≤ c.toNat) : c.toUpper = c := by
  unfold Char.toUpper
  split
  · rename_i letter
    have top : c.val.toNat ≤ 122 := UInt32.le_iff_toNat_le.mp letter.2
    change 128 ≤ c.val.toNat at large
    omega
  · rfl

theorem toUpper_toNat_of_isLower (lower : c.isLower = true) : c.toUpper.toNat < 128 := by
  have all : ∀ n < 128, (Char.ofNat n).toUpper.toNat < 128 := by decide +kernel
  have small := all c.toNat (toNat_of_isLower lower)
  rwa [Char.ofNat_toNat] at small

/-- How one character comes down: a character of ASCII to its small letter, `İ` to an `i` with a dot, and any
    other character to one that is in no word. -/
theorem lowerFrom_cons (before : List Char) (c : Char) (cs : List Char) :
    (c.toNat < 128 ∧ lowerFrom before (c :: cs) = c.toLower :: lowerFrom (c :: before) cs) ∨
    (128 ≤ c.toNat ∧ lowerFrom before (c :: cs) = 'i' :: Char.ofNat 775 :: lowerFrom (c :: before) cs) ∨
    (128 ≤ c.toNat ∧ ∃ d, Foreign d ∧ lowerFrom before (c :: cs) = d :: lowerFrom (c :: before) cs) := by
  rw [lowerFrom]
  by_cases ascii : c.toNat < 128
  · refine .inl ⟨ascii, ?_⟩
    have other : c ≠ 'Σ' := by
      rintro rfl
      exact absurd ascii (by decide)
    simp [other, lowerChar, ascii]
  · have large : 128 ≤ c.toNat := Nat.le_of_not_lt ascii
    refine .inr ?_
    by_cases sigma : c = 'Σ'
    · refine .inr ⟨large, ?_⟩
      simp only [sigma, if_true]
      split
      · exact ⟨'ς', .inl (by decide), rfl⟩
      · exact ⟨'σ', .inl (by decide), rfl⟩
    · rw [if_neg sigma]
      by_cases dotted : c = 'İ'
      · subst dotted
        exact .inl ⟨large, rfl⟩
      · obtain ⟨d, down, foreign⟩ := lowerChar_foreign large dotted
        exact .inr ⟨large, d, foreign, by rw [down]; rfl⟩

theorem prefix_lowerFrom_iff (isWord : IsWord word) (before cs : List Char) :
    word <+: lowerFrom before cs ↔ word.map Char.toUpper <+: cs.map Char.toUpper := by
  induction word generalizing before cs with
  | nil => simp
  | cons w word ih =>
    obtain ⟨lower, other⟩ := isWord.letters w mem_cons_self
    cases cs with
    | nil => simp [lowerFrom]
    | cons c cs =>
      have apart : 128 ≤ c.toNat → w.toUpper ≠ c.toUpper := by
        intro large same
        have small := toUpper_toNat_of_isLower lower
        rw [same, toUpper_of_large large] at small
        omega
      rw [map_cons, map_cons, cons_prefix_cons]
      rcases lowerFrom_cons before c cs with ⟨ascii, down⟩ | ⟨large, down⟩ | ⟨large, d, foreign, down⟩
      · rw [down, cons_prefix_cons, eq_toLower_iff lower ascii, ih isWord.tail]
      · refine iff_of_false ?_ fun h => apart large h.1
        rw [down, cons_prefix_cons]
        rintro ⟨rfl, rest⟩
        -- What follows the `i` is the dot above it, which is no letter.
        cases word with
        | nil => exact isWord.last rfl
        | cons v word =>
          obtain ⟨rfl, _⟩ := cons_prefix_cons.mp rest
          exact absurd (isWord.tail.letters _ mem_cons_self).1 (by decide)
      · refine iff_of_false ?_ fun h => apart large h.1
        rw [down, cons_prefix_cons]
        rintro ⟨rfl, _⟩
        exact not_foreign ⟨lower, other⟩ foreign

theorem infix_lowerFrom_iff (isWord : IsWord word) (nonempty : word ≠ []) (before cs : List Char) :
    word <:+: lowerFrom before cs ↔ word.map Char.toUpper <:+: cs.map Char.toUpper := by
  induction cs generalizing before with
  | nil => simp [lowerFrom]
  | cons c cs ih =>
    have front := prefix_lowerFrom_iff isWord before (c :: cs)
    rw [map_cons] at front ⊢
    rw [infix_cons_iff, ← front, ← ih (c :: before)]
    rcases lowerFrom_cons before c cs with ⟨_, down⟩ | ⟨_, down⟩ | ⟨_, d, _, down⟩
    · rw [down, infix_cons_iff]
    · rw [down, infix_cons_iff, infix_cons_iff]
      have dot : ¬ word <+: Char.ofNat 775 :: lowerFrom (c :: before) cs := by
        intro begins
        cases word with
        | nil => exact nonempty rfl
        | cons w word =>
          obtain ⟨rfl, _⟩ := cons_prefix_cons.mp begins
          exact absurd (isWord.letters _ mem_cons_self).1 (by decide)
      rw [or_iff_right dot]
    · rw [down, infix_cons_iff]

end Lower

section Trimming

variable {word cs : List Char} {p : Char → Bool} {f : Char → Char}

theorem infix_dropWhile_iff (nonempty : word ≠ []) (apart : ∀ c, p c = true → f c ∉ word) :
    word <:+: (cs.dropWhile p).map f ↔ word <:+: cs.map f := by
  induction cs with
  | nil => simp
  | cons c cs ih =>
    rw [dropWhile_cons]
    split
    · rename_i dropped
      rw [ih, map_cons, infix_cons_iff]
      refine (or_iff_right fun begins => ?_).symm
      cases word with
      | nil => exact nonempty rfl
      | cons w word =>
        obtain ⟨rfl, _⟩ := cons_prefix_cons.mp begins
        exact apart c dropped mem_cons_self
    · rfl

theorem infix_trimChars_iff (nonempty : word ≠ []) (apart : ∀ c, isSpace c = true → f c ∉ word) :
    word <:+: (trimChars cs).map f ↔ word <:+: cs.map f := by
  have backwards : ∀ l : List Char, word <:+: (l.reverse.dropWhile isSpace).reverse.map f ↔ word <:+: l.map f := by
    intro l
    rw [map_reverse, ← reverse_infix, reverse_reverse,
      infix_dropWhile_iff (by simpa using nonempty) (by simpa using apart), map_reverse, reverse_infix]
  rw [trimChars, trimEndChars, backwards, infix_dropWhile_iff nonempty apart]

end Trimming

theorem toUpper_of_isSpace (space : isSpace c = true) : c.toUpper = c := by
  by_cases ascii : c.toNat < 128
  · have all : ∀ n < 128, isSpace (Char.ofNat n) = true → (Char.ofNat n).toUpper = Char.ofNat n := by decide +kernel
    have same := all c.toNat ascii
    rw [Char.ofNat_toNat] at same
    exact same space
  · exact toUpper_of_large (Nat.le_of_not_lt ascii)

theorem occursIn_lower_trim {word capital : String} (isWord : IsWord word.toList) (nonempty : word.toList ≠ [])
    (capitals : capital.toList = word.toList.map Char.toUpper) (visible : ∀ c ∈ capital.toList, isSpace c = false)
    (s : String) : occursIn word (lower (trim s)) = occursIn capital (upperAscii s) := by
  rw [Bool.eq_iff_iff, occursIn, occursIn, occursInChars_iff, occursInChars_iff, lower, trim, upperAscii,
    String.toList_ofList, String.toList_ofList, String.toList_ofList, infix_lowerFrom_iff isWord nonempty, capitals,
    infix_trimChars_iff (by simpa using nonempty)]
  intro c space member
  rw [toUpper_of_isSpace space, ← capitals] at member
  rw [visible c member] at space
  cases space

end Text

namespace Affinity

open Text (lower trim)

/-- The affinity that the words in the name of a type give, in small letters. -/
def ofWords (name : String) : Affinity :=
  let has (word : String) : Bool := Text.occursIn word name
  if has "int" then .integer
  else if has "char" || has "clob" || has "text" then .text
  else if has "blob" then .blob
  else if has "real" || has "floa" || has "doub" then .real
  else .numeric

/-- The PostgreSQL types that are declared as text, although a SQLite source takes them for numeric ones. -/
def textTypes : List String :=
  ["uuid", "json", "jsonb", "timestamp", "timestamptz", "date", "time", "interval", "name"]

theorem ofDeclared_eq (name : String) :
    ofDeclared name = if name.isEmpty then .untyped else ofWords (lower (trim name)) := by
  have has : ∀ word capital : String, Text.IsWord word.toList → word.toList ≠ [] →
      capital.toList = word.toList.map Char.toUpper → (capital.toList.all fun c => !Text.isSpace c) = true →
      Text.occursIn capital (Text.upperAscii name) = Text.occursIn word (lower (trim name)) :=
    fun word capital isWord nonempty capitals visible =>
      (Text.occursIn_lower_trim isWord nonempty capitals (by simpa using visible) name).symm
  simp only [ofDeclared, ofWords,
    has "int" "INT" (by decide) (by decide) (by decide) (by decide),
    has "char" "CHAR" (by decide) (by decide) (by decide) (by decide),
    has "clob" "CLOB" (by decide) (by decide) (by decide) (by decide),
    has "text" "TEXT" (by decide) (by decide) (by decide) (by decide),
    has "blob" "BLOB" (by decide) (by decide) (by decide) (by decide),
    has "real" "REAL" (by decide) (by decide) (by decide) (by decide),
    has "floa" "FLOA" (by decide) (by decide) (by decide) (by decide),
    has "doub" "DOUB" (by decide) (by decide) (by decide) (by decide)]

theorem ofTypeName_eq (name : String) : ofTypeName name = if (lower (trim name)).isEmpty then .untyped
      else match PostgresType.parse? (lower (trim name)) with
        | some type => type.affinity
        | none => ofWords (lower (trim name)) := by
  cases known : PostgresType.parse? (lower (trim name)) with
  | none => simp only [ofTypeName, ofWords, known]
  | some type => simp only [ofTypeName, known]

/-- What a type of PostgreSQL is declared as, and what its name would give by the words in it. -/
theorem affinity_of_parse? {name : String} {type : PostgresType} (known : PostgresType.parse? name = some type) :
    (type.affinity = .text ∧ (ofWords name).isNumeric = true ∧ name ∈ textTypes) ∨
    (name ∉ textTypes ∧ (type.affinity = ofWords name ∨
      (type.affinity = .integer ∨ type.affinity = .blob) ∧ ofWords name = .numeric)) := by
  unfold PostgresType.parse? at known
  split at known <;> cases known
  all_goals decide +kernel

theorem ofTypeName_cases (name : String) :
    (ofTypeName name = .text ∧ (ofDeclared name).isNumeric = true ∧ lower (trim name) ∈ textTypes) ∨
    (lower (trim name) ∉ textTypes ∧ (ofTypeName name = ofDeclared name ∨ ofTypeName name = .untyped ∨
      (ofTypeName name = .integer ∨ ofTypeName name = .blob) ∧ ofDeclared name = .numeric)) := by
  rw [ofTypeName_eq, ofDeclared_eq]
  by_cases blank : (lower (trim name)).isEmpty = true
  · rw [if_pos blank]
    refine .inr ⟨?_, .inr (.inl rfl)⟩
    rw [String.isEmpty_iff.mp blank]
    decide
  · have written : ¬ name.isEmpty = true := by
      intro empty
      rw [String.isEmpty_iff.mp empty] at blank
      exact blank (by decide)
    rw [if_neg blank, if_neg written]
    cases known : PostgresType.parse? (lower (trim name)) with
    | none =>
      refine .inr ⟨fun member => ?_, .inl rfl⟩
      simp only [textTypes, mem_cons, not_mem_nil, or_false] at member
      rcases member with h | h | h | h | h | h | h | h | h <;> rw [h] at known <;> cases known
    | some type =>
      rcases affinity_of_parse? known with text | ⟨other, same | near⟩
      · exact .inl text
      · exact .inr ⟨other, .inl same⟩
      · exact .inr ⟨other, .inr (.inr near)⟩

end Affinity

end SemanticLayer
