import Mathlib.Data.List.TakeDrop
import SemanticLayer.Duration

/-! # Written durations are read back

A duration is written as a number of the largest unit that divides it, so reading the text gives the
duration again as long as that number is one of 64 bits.
-/

namespace SemanticLayer

open List

namespace Text

theorem code_of_isDigit {c : Char} (digit : c.isDigit = true) : 48 ≤ c.toNat ∧ c.toNat ≤ 57 := by
  simpa [Char.isDigit, UInt32.le_iff_toNat_le] using digit

theorem not_isSpace_of_isDigit {c : Char} (digit : c.isDigit = true) : isSpace c = false := by
  have code := code_of_isDigit digit
  simp only [isSpace, spaceRanges, Ranges.has, any_cons, any_nil, Bool.or_false,
    Bool.or_eq_false_iff, Bool.and_eq_false_iff, decide_eq_false_iff_not]
  omega

theorem not_isAlpha_of_isDigit {c : Char} (digit : c.isDigit = true) : c.isAlpha = false := by
  have code := code_of_isDigit digit
  delta Char.isAlpha Char.isUpper Char.isLower
  simp [UInt32.le_iff_toNat_le]
  omega

theorem dropWhile_isSpace {cs : List Char} (solid : ∀ c ∈ cs, isSpace c = false) : cs.dropWhile isSpace = cs := by
  cases cs with
  | nil => rfl
  | cons c cs => simp [solid c mem_cons_self]

theorem trimChars_solid {cs : List Char} (solid : ∀ c ∈ cs, isSpace c = false) : trimChars cs = cs := by
  rw [trimChars, dropWhile_isSpace solid, trimEndChars, dropWhile_isSpace, reverse_reverse]
  intro c member
  exact solid c (mem_reverse.mp member)

end Text

namespace Number

theorem ofDigits_toDigits (n : Nat) : ofDigits (Nat.toDigits 10 n) = n := by
  have same : ofDigits (Nat.toDigits 10 n) = Nat.ofDigitChars 10 (Nat.toDigits 10 n) 0 := by
    simp [ofDigits, Nat.ofDigitChars, Nat.mul_comm]
  rw [same, Nat.ofDigitChars_toDigits (by decide) (by decide)]

theorem readUnsigned_toDigits {n bound : Nat} (small : n < bound) :
    readUnsigned? bound (Nat.toDigits 10 n) = some n := by
  have digits : ∀ c ∈ Nat.toDigits 10 n, c.isDigit = true := fun c member =>
    Nat.isDigit_of_mem_toDigits (by decide) (by decide) member
  have some := Nat.toDigits_ne_nil (n := n) (b := 10)
  have value := ofDigits_toDigits n
  cases written : Nat.toDigits 10 n with
  | nil => exact absurd written some
  | cons c cs =>
    rw [written] at digits value
    have unsigned : c ≠ '+' := by
      rintro rfl
      exact absurd (digits '+' mem_cons_self) (by decide)
    simp [readUnsigned?, unsigned, value, small]
    simpa using digits

end Number

namespace DurationUnit

theorem find_suffix (u : DurationUnit) : (all.find? fun v => v.suffix.toList == u.suffix.toList) = some u := by
  cases u <;> decide

theorem suffix_solid (u : DurationUnit) : ∀ c ∈ u.suffix.toList, Text.isSpace c = false := by
  have solid : (u.suffix.toList.all fun c => !Text.isSpace c) = true := by cases u <;> decide
  simpa using solid

theorem suffix_isAlpha (u : DurationUnit) : ∃ c cs, u.suffix.toList = c :: cs ∧ c.isAlpha = true := by
  cases u <;> exact ⟨_, _, rfl, by decide⟩

end DurationUnit

namespace Duration

theorem span_number (n : Nat) (u : DurationUnit) :
    (Nat.toDigits 10 n ++ u.suffix.toList).span (fun c => !c.isAlpha) = (Nat.toDigits 10 n, u.suffix.toList) := by
  have digits : ∀ c ∈ Nat.toDigits 10 n, (!c.isAlpha) = true := by
    intro c member
    have digit := Nat.isDigit_of_mem_toDigits (by decide) (by decide) member
    simp [Text.not_isAlpha_of_isDigit digit]
  obtain ⟨c, cs, suffix, letter⟩ := u.suffix_isAlpha
  rw [span_eq_takeWhile_dropWhile, takeWhile_append_of_pos digits, dropWhile_append_of_pos digits, suffix]
  simp [letter]

/-- A number of units is read as that many units, or refused as too large. -/
theorem parse_number {n : Nat} (small : n < Nat.pow 2 64) (u : DurationUnit) : parse (toString n ++ u.suffix) =
    (ofNanos? (n * u.nanos)).elim (.error (.tooLarge (toString n ++ u.suffix))) .ok := by
  have digits : ∀ c ∈ Nat.toDigits 10 n, Text.isSpace c = false := fun c member =>
    Text.not_isSpace_of_isDigit (Nat.isDigit_of_mem_toDigits (by decide) (by decide) member)
  have solid : ∀ c ∈ Nat.toDigits 10 n ++ u.suffix.toList, Text.isSpace c = false := by
    intro c member
    rcases mem_append.mp member with digit | letter
    · exact digits c digit
    · exact u.suffix_solid c letter
  have text : (toString n ++ u.suffix).toList = Nat.toDigits 10 n ++ u.suffix.toList := by
    rw [String.toList_append, Nat.toString_eq_repr, Nat.toList_repr]
  have unit : u.suffix.toList.isEmpty = false := by
    obtain ⟨c, cs, suffix, _⟩ := u.suffix_isAlpha
    rw [suffix, isEmpty_cons]
  have shown : String.ofList (Nat.toDigits 10 n ++ u.suffix.toList) = toString n ++ u.suffix := by
    rw [← text, String.ofList_toList]
  -- Neither the whole text nor one of its two parts has anything to trim.
  simp only [parse, text, Text.trimChars_solid solid, span_number, unit,
    Text.trimChars_solid u.suffix_solid, u.find_suffix, Text.trimChars_solid digits, nanosOf?,
    Number.readUnsigned_toDigits small, shown]
  cases ofNanos? (n * u.nanos) <;> rfl

theorem largestUnit_dvd (d : Duration) : d.largestUnit.nanos ∣ d.nanos := by
  unfold largestUnit
  cases found : DurationUnit.all.find? fun u => d.nanos % u.nanos == 0 with
  | none => exact Nat.one_dvd _
  | some u => exact Nat.dvd_of_mod_eq_zero (by simpa using find?_some found)

theorem parse_render {d : Duration} (small : d.nanos / d.largestUnit.nanos < Nat.pow 2 64) :
    parse d.render = .ok d := by
  unfold render
  split
  · rename_i zero
    rw [show d = Duration.zero from by cases d; cases zero; rfl]
    exact parse_number (n := 0) (by decide) .second
  · rw [parse_number small, Nat.div_mul_cancel d.largestUnit_dvd, ofNanos?, dif_pos d.inRange]
    rfl

/-- A unit divides a duration, and no larger one does. -/
def IsLargestUnit (d : Duration) (u : DurationUnit) : Prop :=
  u.nanos ∣ d.nanos ∧ ∀ v : DurationUnit, v.nanos ∣ d.nanos → v.nanos ≤ u.nanos

theorem largestUnit_eq {d : Duration} {u : DurationUnit} (largest : d.IsLargestUnit u) : d.largestUnit = u := by
  obtain ⟨divides, above⟩ := largest
  have tried : u ∈ DurationUnit.all := by cases u <;> simp [DurationUnit.all]
  have sorted : DurationUnit.all.Pairwise fun a b => b.nanos ≤ a.nanos := by decide
  have least : u.nanos ≤ d.largestUnit.nanos := by
    unfold largestUnit
    cases found : DurationUnit.all.find? fun u => d.nanos % u.nanos == 0 with
    | none =>
      have missed := find?_eq_none.mp found u tried
      exact absurd (Nat.mod_eq_zero_of_dvd divides) (by simpa using missed)
    | some v =>
      obtain ⟨_, front, back, split, missed⟩ := find?_eq_some_iff_append.mp found
      rw [split] at tried sorted
      rcases mem_append.mp tried with early | late
      · exact absurd (Nat.mod_eq_zero_of_dvd divides) (by simpa using missed u early)
      · rcases mem_cons.mp late with rfl | late
        · exact Nat.le_refl _
        · exact (pairwise_cons.mp (pairwise_append.mp sorted).2.1).1 u late
  have same : d.largestUnit.nanos = u.nanos := Nat.le_antisymm (above _ d.largestUnit_dvd) least
  revert same
  cases d.largestUnit <;> cases u <;> decide

/-- Durations are exact. A number of units is read as exactly that many nanoseconds, or refused as too large where
that is `2^64` seconds or more; the product fits into 128 bits. A written duration is read back, and it is written
in the largest unit that divides it; nothing at all is written in seconds. -/
theorem durations_exact : (∀ (n : UInt64) (u : DurationUnit), n.toNat * u.nanos < Nat.pow 2 128 ∧
      parse (toString n.toNat ++ u.suffix) =
        if exact : n.toNat * u.nanos < Nat.pow 2 64 * 1000000000 then .ok ⟨n.toNat * u.nanos, exact⟩
        else .error (.tooLarge (toString n.toNat ++ u.suffix))) ∧
    ∀ (d : Duration) (u : DurationUnit), d.IsLargestUnit u → d.nanos / u.nanos < Nat.pow 2 64 → parse d.render = .ok d ∧
        d.render = if d.nanos = 0 then "0s" else toString (d.nanos / u.nanos) ++ u.suffix := by
  have small (n : UInt64) : n.toNat < Nat.pow 2 64 := n.toNat_lt
  refine ⟨fun n u => ⟨?_, ?_⟩, fun d u largest count => ?_⟩
  · have unit : u.nanos < Nat.pow 2 64 := by cases u <;> decide
    exact Nat.lt_of_lt_of_eq (Nat.mul_lt_mul'' (small n) unit) rfl
  · rw [parse_number (small n), ofNanos?]
    split <;> rfl
  · obtain rfl := largestUnit_eq largest
    exact ⟨parse_render count, rfl⟩

/-- An hour and a half is written in minutes and read back. -/
theorem ninety_minutes_exact : ∃ d : Duration, d.nanos = 5400000000000 ∧ d.IsLargestUnit .minute ∧
    parse d.render = .ok d ∧ d.render = "90m" := by
  let d : Duration := ⟨5400000000000, by decide⟩
  have largest : d.IsLargestUnit .minute := ⟨by decide, fun v => by cases v <;> decide⟩
  obtain ⟨readBack, written⟩ := durations_exact.2 d .minute largest (by decide)
  exact ⟨d, rfl, largest, readBack, written.trans (by decide)⟩

/-- A day divides zero and is the largest unit, but zero is not written in days. -/
theorem zero_not_in_days : Duration.zero.IsLargestUnit .day ∧ Duration.zero.nanos / DurationUnit.day.nanos < Nat.pow 2 64 ∧
    ∀ n : Nat, Duration.zero.render ≠ toString n ++ DurationUnit.day.suffix := by
  refine ⟨⟨Nat.dvd_zero _, fun v _ => by cases v <;> decide⟩, by decide, fun n same => ?_⟩
  have last := congrArg (fun s : String => s.toList.getLast?) same
  simp only [String.toList_append, DurationUnit.suffix, List.getLast?_append] at last
  have letters : some 's' = some 'd' := last
  exact absurd letters (by decide)

end Duration

end SemanticLayer
