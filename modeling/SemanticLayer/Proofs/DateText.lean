import Mathlib.Algebra.Group.Nat.Defs
import SemanticLayer.Calendar.Truncate
import SemanticLayer.Proofs.DurationText

/-! # Written dates are read back

Numbers of a date or of a time of day are written with leading zeros, and so are read back as a whole. A year outside of
four digits has a sign, behind which any number of digits is read.
-/

namespace SemanticLayer

open List

theorem Number.ofDigits_zeros (count : Nat) (ds : List Char) : ofDigits (replicate count '0' ++ ds) = ofDigits ds := by
  induction count with
  | zero => rfl
  | succ count ih => exact ih

theorem skipSpace_digit {c : Char} (cs : List Char) (digit : c.isDigit = true) : skipSpace (c :: cs) = c :: cs := by
  simp [skipSpace, Text.not_isSpace_of_isDigit digit]

namespace Date

theorem toList_padded (width n : Nat) : (padded width n).toList =
    replicate (width - (Nat.toDigits 10 n).length) '0' ++ Nat.toDigits 10 n := by
  have digits : (toString n).toList = Nat.toDigits 10 n := by rw [Nat.toString_eq_repr, Nat.toList_repr]
  rw [padded, String.toList_append, String.toList_ofList, digits, ← String.length_toList, digits]

theorem isDigit_padded (width n : Nat) : ∀ c ∈ (padded width n).toList, c.isDigit = true := by
  intro c member
  rw [toList_padded] at member
  rcases mem_append.mp member with zero | digit
  · rw [eq_of_mem_replicate zero]
    rfl
  · exact Nat.isDigit_of_mem_toDigits (by decide) (by decide) digit

theorem ofDigits_padded (width n : Nat) : Number.ofDigits (padded width n).toList = n := by
  rw [toList_padded, Number.ofDigits_zeros, Number.ofDigits_toDigits]

theorem length_padded {width n : Nat} (positive : 0 < width) (small : n < 10 ^ width) :
    (padded width n).toList.length = width := by
  have short := (Nat.length_toDigits_le_iff (by decide) positive).mpr small
  rw [toList_padded, length_append, length_replicate, Nat.sub_add_cancel short]

theorem padded_eq_cons (width n : Nat) : ∃ c cs, c.isDigit = true ∧ (padded width n).toList = c :: cs := by
  have digits := isDigit_padded width n
  have some : (padded width n).toList ≠ [] := by
    rw [toList_padded]
    exact append_ne_nil_of_right_ne_nil _ Nat.toDigits_ne_nil
  obtain ⟨c, cs, written⟩ := exists_cons_of_ne_nil some
  exact ⟨c, cs, digits c (written ▸ mem_cons_self), written⟩

/-- A number with leading zeros is read back, whatever follows it. -/
theorem readNumber?_padded {width n : Nat} (positive : 0 < width) (small : n < 10 ^ width) (rest : List Char) :
    readNumber? width ((padded width n).toList ++ rest) = some (n, rest) := by
  have length := length_padded positive small
  have value := ofDigits_padded width n
  have digits := isDigit_padded width n
  obtain ⟨c, cs, digit, written⟩ := padded_eq_cons width n
  rw [written] at length value digits ⊢
  have taken : (leadingDigits (c :: cs ++ rest)).take width = c :: cs := by
    rw [leadingDigits, takeWhile_append_of_pos digits, ← length, take_left]
  rw [readNumber?, cons_append, skipSpace_digit _ digit, ← cons_append, taken]
  simp [value]

theorem readNumber?_two {n : Nat} (small : n < 100) (rest : List Char) :
    readNumber? 2 ((padded 2 n).toList ++ rest) = some (n, rest) := readNumber?_padded (by decide) small rest

theorem readYear?_yearText (year : Int) (rest : List Char) :
    readYear? ((yearText year).toList ++ '-' :: rest) = some (year, '-' :: rest) := by
  have signed : ∀ (sign : Int), sign * year.natAbs = year →
      readYear?.signed sign ((padded 4 year.natAbs).toList ++ '-' :: rest) = some (year, '-' :: rest) := by
    intro sign value
    have digits : leadingDigits ((padded 4 year.natAbs).toList ++ '-' :: rest) = (padded 4 year.natAbs).toList := by
      rw [leadingDigits, takeWhile_append_of_pos (isDigit_padded 4 _)]
      exact append_nil _
    have some : (padded 4 year.natAbs).toList.isEmpty = false := by
      obtain ⟨_, _, _, written⟩ := padded_eq_cons 4 year.natAbs
      rw [written, isEmpty_cons]
    rw [readYear?.signed, digits, some, ofDigits_padded, value, drop_left]
    rfl
  unfold yearText
  split
  · rename_i inRange
    simp only [Bool.and_eq_true, decide_eq_true_eq] at inRange
    have read := @readNumber?_padded 4 year.toNat (by decide) (by omega) ('-' :: rest)
    obtain ⟨c, cs, digit, written⟩ := padded_eq_cons 4 year.toNat
    have unsigned : c ≠ '-' ∧ c ≠ '+' := by
      constructor <;> rintro rfl <;> cases digit
    rw [written, cons_append] at read ⊢
    rw [readYear?, skipSpace_digit _ digit]
    split
    · rename_i same
      cases same
      exact absurd rfl unsigned.1
    · rename_i same
      cases same
      exact absurd rfl unsigned.2
    · rw [read, Option.map_some]
      dsimp only
      rw [Int.toNat_of_nonneg inRange.1]
  · have minus : ∀ cs, readYear? ("-".toList ++ cs) = readYear?.signed (-1) cs := fun _ => rfl
    have plus : ∀ cs, readYear? ("+".toList ++ cs) = readYear?.signed 1 cs := fun _ => rfl
    rw [String.toList_append, append_assoc]
    split
    · rw [minus, signed (-1) (by omega)]
    · rw [plus, signed 1 (by omega)]

theorem monthLength_bounds (year : Int) (month : Nat) : 28 ≤ monthLength year month ∧ monthLength year month ≤ 31 := by
  unfold monthLength
  split
  case h_1 => split <;> decide
  all_goals decide

theorem read?_render {d : Date} (valid : d.isValid = true) (rest : List Char) :
    read? (d.render.toList ++ rest) = some (d, rest) := by
  have small : d.month < 100 ∧ d.day < 100 := by
    simp only [isValid, Bool.and_eq_true, decide_eq_true_eq] at valid
    have length := (monthLength_bounds d.year d.month).2
    omega
  have text : d.render.toList ++ rest = (yearText d.year).toList ++ '-' ::
      ((padded 2 d.month).toList ++ '-' :: ((padded 2 d.day).toList ++ rest)) := by
    simp [render]
  rw [text, read?, readYear?_yearText]
  simp only [Option.bind_eq_bind, Option.bind_some, behind?, if_true, readNumber?_two small.1, readNumber?_two small.2, valid]
  rfl

end Date

namespace Moment

def clockText (m : Moment) : List Char :=
  (Date.padded 2 m.hour).toList ++ ':' :: ((Date.padded 2 m.minute).toList ++ ':' :: (Date.padded 2 m.second).toList)

variable {m : Moment}

theorem readClock?_clockText (valid : m.isValid = true) (notLeap : m.leap = false) :
    readClock? m.date (' ' :: m.clockText) = some (m, []) := by
  obtain ⟨date, hour, minute, second, leap⟩ := m
  cases notLeap
  have inRange := valid
  simp only [isValid, Bool.and_eq_true, decide_eq_true_eq] at inRange
  obtain ⟨⟨⟨_, hours⟩, minutes⟩, seconds⟩ := inRange
  have space : ∀ cs, readNumber? 2 (' ' :: cs) = readNumber? 2 cs := fun _ => rfl
  have last := @Date.readNumber?_two second (by omega) []
  have notSixty : min second 59 = second ∧ (second == 60) = false ∧ second ≤ 60 := by
    refine ⟨by omega, beq_eq_false_iff_ne.mpr (by omega), by omega⟩
  rw [append_nil] at last
  rw [readClock?, space, clockText, @Date.readNumber?_two hour (by omega)]
  simp only [Option.bind_eq_bind, Option.bind_some, behind?, if_true, last, @Date.readNumber?_two minute (by omega),
    notSixty, valid, Bool.true_and, decide_true]
  rfl

theorem read?_of_clock {cs rest : List Char} {date : Date} (dateRead : Date.read? cs = some (date, ' ' :: rest))
    (clock : readClock? date (' ' :: rest) = some (m, [])) : read? cs = some m := by
  rw [read?, dateRead]
  change (readClock? date (' ' :: rest)).bind _ = _
  rw [clock]
  rfl

theorem read?_render (valid : m.isValid = true) (notLeap : m.leap = false) :
    Date.read? m.render.toList = some (m.date, ' ' :: m.clockText) ∧ read? m.render.toList = some m := by
  have text : m.render.toList = m.date.render.toList ++ ' ' :: m.clockText := by
    simp [render, clockText, notLeap]
  have clock := readClock?_clockText valid notLeap
  simp only [isValid, Bool.and_eq_true] at valid
  have dateRead := Date.read?_render valid.1.1.1 (' ' :: m.clockText)
  rw [text]
  exact ⟨dateRead, read?_of_clock dateRead clock⟩

end Moment

namespace Timestamp

/-- A timestamp that is no leap second and, where it is a date alone, has no time of day. -/
theorem read?_render {t : Timestamp} (valid : t.moment.isValid = true) (notLeap : t.moment.leap = false)
    (plain : t.dateOnly = true → t.moment = { date := t.moment.date }) : read? t.render.toList = some t := by
  obtain ⟨moment, dateOnly⟩ := t
  cases dateOnly with
  | true =>
    simp only [Moment.isValid, Bool.and_eq_true] at valid
    have dateRead := Date.read?_render valid.1.1.1 []
    rw [append_nil] at dateRead
    change read? moment.date.render.toList = _
    rw [read?, dateRead]
    exact congrArg (fun moment => some (mk moment true)) (plain rfl).symm
  | false =>
    obtain ⟨dateRead, momentRead⟩ := Moment.read?_render valid notLeap
    change read? moment.render.toList = _
    rw [read?, dateRead, momentRead]
    rfl

end Timestamp

end SemanticLayer
