import SemanticLayer.Proofs.DateText

/-! # Truncating is rounding down

The periods of a unit start at certain moments. Truncating a moment gives the last one of these that is not after it, so
it keeps the order of moments, and two moments are truncated to the same one exactly if they lie in the same period.
-/

namespace SemanticLayer

namespace Date

/-- A day of the calendar, in any year. -/
def IsDay (d : Date) : Prop :=
  1 ≤ d.month ∧ d.month ≤ 12 ∧ 1 ≤ d.day ∧ d.day ≤ monthLength d.year d.month

variable {d e : Date} {month : Nat}

theorem isDay_of_isValid (valid : d.isValid = true) : d.IsDay := by
  simp only [isValid, Bool.and_eq_true, decide_eq_true_eq] at valid
  exact ⟨valid.1.1.1.2, valid.1.1.2, valid.1.2, valid.2⟩

theorem daysBeforeMonth_succ (year : Int) (positive : 1 ≤ month) :
    daysBeforeMonth year (month + 1) = daysBeforeMonth year month + monthLength year month := by
  obtain ⟨n, rfl⟩ := Nat.exists_eq_add_of_le' positive
  simp [daysBeforeMonth, List.range_succ]

theorem daysBeforeMonth_le (year : Int) {later : Nat} (positive : 1 ≤ month) (before : month < later) :
    daysBeforeMonth year month + monthLength year month ≤ daysBeforeMonth year later := by
  induction later with
  | zero => omega
  | succ n ih =>
    rcases Nat.lt_succ_iff_lt_or_eq.mp before with earlier | rfl
    · rw [daysBeforeMonth_succ year (by omega : 1 ≤ n)]
      exact Nat.le_trans (ih earlier) (Nat.le_add_right _ _)
    · exact Nat.le_of_eq (daysBeforeMonth_succ year positive).symm

theorem daysBeforeYear_succ (year : Int) :
    daysBeforeYear (year + 1) = daysBeforeYear year + daysBeforeMonth year 13 := by
  have length : daysBeforeMonth year 13 = if isLeap year then 366 else 365 := by
    cases leap : isLeap year <;> simp [daysBeforeMonth, monthLength, leap, List.range_succ]
  rw [length]
  cases leap : isLeap year
  all_goals
    simp only [isLeap, Bool.and_eq_true, Bool.and_eq_false_iff, Bool.or_eq_true, Bool.or_eq_false_iff, bne_iff_ne,
      beq_iff_eq, beq_eq_false_iff_ne, bne_eq_false_iff_eq] at leap
    simp only [daysBeforeYear, Bool.false_eq_true, if_true, if_false]
    omega

theorem daysBeforeYear_le {year later : Int} (before : year ≤ later) : daysBeforeYear year ≤ daysBeforeYear later := by
  unfold daysBeforeYear
  omega

theorem isValid_of_read? {cs rest : List Char} (read : read? cs = some (d, rest)) : d.isValid = true := by
  simp only [read?, Option.bind_eq_bind, Option.bind_eq_some_iff, Option.pure_def, Prod.exists] at read
  obtain ⟨_, _, _, _, _, _, _, _, _, _, _, _, _, read⟩ := read
  split at read
  · rename_i valid
    cases read
    exact valid
  · cases read

theorem number_lt_year (day : d.IsDay) : daysBeforeYear d.year ≤ d.number ∧ d.number < daysBeforeYear (d.year + 1) := by
  obtain ⟨first, last, one, length⟩ := day
  have inYear : daysBeforeMonth d.year d.month + monthLength d.year d.month ≤ daysBeforeMonth d.year 13 :=
    daysBeforeMonth_le d.year first (Nat.lt_succ_of_le last)
  rw [daysBeforeYear_succ]
  unfold number
  omega

/-- Dates are numbered in the order of their years, months and days. -/
theorem number_le_iff (day : d.IsDay) (day' : e.IsDay) : d.number ≤ e.number ↔
    d.year < e.year ∨ d.year = e.year ∧ (d.month < e.month ∨ d.month = e.month ∧ d.day ≤ e.day) := by
  have before : ∀ {d e : Date}, d.IsDay → e.IsDay →
      d.year < e.year ∨ d.year = e.year ∧ (d.month < e.month ∨ d.month = e.month ∧ d.day < e.day) → d.number < e.number := by
    intro d e day day' earlier
    rcases earlier with year | ⟨year, month | ⟨month, days⟩⟩
    · have next := daysBeforeYear_le (Int.add_one_le_of_lt year)
      have inYear := number_lt_year day
      have inYear' := number_lt_year day'
      omega
    · obtain ⟨first, _, one, length⟩ := day
      have next := daysBeforeMonth_le d.year first month
      unfold number
      rw [← year]
      omega
    · obtain ⟨_, _, one, _⟩ := day
      unfold number
      rw [year, month]
      omega
  constructor
  · intro le
    by_contra later
    have after := before day' day (by omega)
    omega
  · intro lex
    by_cases same : d.year = e.year ∧ d.month = e.month ∧ d.day = e.day
    · obtain ⟨year, month, days⟩ := same
      exact Int.le_of_eq (by rw [number, number, year, month, days])
    · exact Int.le_of_lt (before day day' (by omega))

theorem eq_of_number_eq (day : d.IsDay) (day' : e.IsDay) (same : d.number = e.number) : d = e := by
  have le := (number_le_iff day day').mp (Int.le_of_eq same)
  have ge := (number_le_iff day' day).mp (Int.le_of_eq same.symm)
  obtain ⟨year, month, days⟩ := d
  obtain ⟨year', month', days'⟩ := e
  dsimp only at le ge
  simp only [mk.injEq]
  omega

theorem isDay_previous (day : d.IsDay) : d.previous.IsDay ∧ d.previous.number = d.number - 1 := by
  obtain ⟨first, last, one, length⟩ := day
  unfold previous
  split
  · rename_i inside
    refine ⟨⟨first, last, Nat.le_sub_one_of_lt inside, Nat.le_trans (Nat.sub_le _ _) length⟩, ?_⟩
    simp only [number]
    omega
  · split
    · rename_i inside
      have pos := (monthLength_bounds d.year (d.month - 1)).1
      have next := daysBeforeMonth_succ d.year (Nat.le_sub_one_of_lt inside)
      rw [Nat.sub_add_cancel first] at next
      refine ⟨⟨Nat.le_sub_one_of_lt inside, Nat.le_trans (Nat.sub_le _ _) last, by dsimp only; omega, Nat.le_refl _⟩, ?_⟩
      simp only [number]
      omega
    · have month : d.month = 1 := by omega
      have next := daysBeforeYear_succ (d.year - 1)
      have length : daysBeforeMonth (d.year - 1) 13 = daysBeforeMonth (d.year - 1) 12 + 31 :=
        daysBeforeMonth_succ _ (by decide)
      rw [Int.sub_add_cancel] at next
      refine ⟨⟨Nat.le_add_left 1 11, Nat.le_refl 12, Nat.le_add_left 1 30, Nat.le_refl 31⟩, ?_⟩
      have none : daysBeforeMonth d.year 1 = 0 := rfl
      simp only [number, month]
      omega

theorem isDay_back (n : Nat) (day : d.IsDay) : (d.back n).IsDay ∧ (d.back n).number = d.number - n := by
  induction n generalizing d with
  | zero => exact ⟨day, (Int.sub_zero _).symm⟩
  | succ n ih =>
    obtain ⟨day', number⟩ := isDay_previous day
    obtain ⟨earlier, number'⟩ := ih day'
    refine ⟨earlier, ?_⟩
    rw [back, number', number]
    omega

/-- Whether a period starts with a date. -/
def Starts : TimeUnit → Date → Prop
  | .year, d => d.month = 1 ∧ d.day = 1
  | .quarter, d => d.month % 3 = 1 ∧ d.day = 1
  | .month, d => d.day = 1
  | .week, d => d.weekday = 0
  | .day, _ | .hour, _ | .minute, _ | .second, _ => True

example : Starts .week ⟨2024, 5, 13⟩ := rfl

theorem weekday_eq (d : Date) : (d.weekday : Int) = d.number % 7 := Int.toNat_of_nonneg (Int.emod_nonneg _ (by decide))

theorem isDay_truncate (unit : TimeUnit) (day : d.IsDay) : (d.truncate unit).IsDay := by
  have one : ∀ month, 1 ≤ monthLength d.year month := fun month =>
    Nat.le_trans (by decide) (monthLength_bounds d.year month).1
  cases unit with
  | year => exact ⟨Nat.le_refl 1, Nat.le_add_left 1 11, Nat.le_refl 1, one _⟩
  | quarter =>
    refine ⟨Nat.le_add_left 1 _, ?_, Nat.le_refl 1, one _⟩
    have last := day.2.1
    dsimp only [truncate]
    omega
  | month => exact ⟨day.1, day.2.1, Nat.le_refl 1, one _⟩
  | week => exact (isDay_back _ day).1
  | day | hour | minute | second => exact day

theorem starts_truncate (unit : TimeUnit) (day : d.IsDay) : Starts unit (d.truncate unit) := by
  cases unit with
  | year => exact ⟨rfl, rfl⟩
  | quarter =>
    refine ⟨?_, rfl⟩
    dsimp only [truncate]
    omega
  | month => rfl
  | week =>
    have number := (isDay_back d.weekday day).2
    have rest := weekday_eq d
    refine Int.ofNat_inj.mp ((weekday_eq _).trans ?_)
    rw [truncate, number]
    omega
  | day | hour | minute | second => trivial

/-- The truncated date is the last one not after the date with which a period starts. -/
theorem truncate_greatest {unit : TimeUnit} (day : d.IsDay) : (d.truncate unit).number ≤ d.number ∧
    ∀ start : Date, start.IsDay → start.Starts unit → start.number ≤ d.number →
      start.number ≤ (d.truncate unit).number := by
  have day' := isDay_truncate unit day
  obtain ⟨first, last, one, _⟩ := id day
  cases unit with
  | year | quarter | month =>
    refine ⟨(number_le_iff day' day).mpr ?_, fun start here starts le => ?_⟩
    · dsimp only [truncate]
      omega
    · rw [number_le_iff here day] at le
      rw [number_le_iff here day']
      have one' := here.1
      dsimp only [truncate, Starts] at starts ⊢
      omega
  | week =>
    have number := (isDay_back d.weekday day).2
    have rest := weekday_eq d
    refine ⟨?_, fun start _ starts le => ?_⟩
    · rw [truncate, number]
      omega
    · have monday := (weekday_eq start).symm.trans (congrArg Nat.cast starts)
      rw [truncate, number]
      omega
  | day | hour | minute | second => exact ⟨Int.le_refl _, fun _ _ _ le => le⟩

theorem truncate_of_starts {unit : TimeUnit} (day : d.IsDay) (starts : d.Starts unit) : d.truncate unit = d := by
  obtain ⟨before, greatest⟩ := @truncate_greatest d unit day
  exact eq_of_number_eq (isDay_truncate unit day) day (Int.le_antisymm before (greatest d day starts (Int.le_refl _)))

end Date

namespace Moment

variable {unit : TimeUnit} {m n start : Moment}

/-- Where a moment stands in time: a leap second comes between the second it belongs to and the next one. -/
def instant (m : Moment) : Int := 2 * m.number + if m.leap then 1 else 0

/-- A moment with which a period starts. -/
structure Starts (unit : TimeUnit) (m : Moment) : Prop where
  valid : m.isValid = true
  notLeap : m.leap = false
  date : m.date.Starts unit
  hour : unit ∉ [.hour, .minute, .second] → m.hour = 0
  minute : unit ∉ [.minute, .second] → m.minute = 0
  second : unit ≠ .second → m.second = 0

theorem isValid_iff : m.isValid = true ↔ m.date.isValid = true ∧ m.hour < 24 ∧ m.minute < 60 ∧ m.second < 60 := by
  simp [isValid, and_assoc]

theorem isValid_of_read? {cs : List Char} (read : read? cs = some m) : m.isValid = true := by
  have clock : ∀ {date : Date} {cs rest : List Char}, readClock? date cs = some (m, rest) → m.isValid = true := by
    intro date cs rest read
    simp only [readClock?, Option.bind_eq_bind, Option.bind_eq_some_iff, Option.pure_def, Prod.exists] at read
    obtain ⟨_, _, _, _, _, _, _, _, _, _, _, _, _, read⟩ := read
    split at read
    · rename_i valid
      cases read
      exact (Bool.and_eq_true_iff.mp valid).1
    · cases read
  simp only [read?, Option.bind_eq_bind, Option.bind_eq_some_iff, Option.pure_def, Prod.exists] at read
  obtain ⟨_, _, _, m', _, found, read⟩ := read
  split at read
  · rename_i same
    cases same
    cases read
    exact clock found
  · cases read

theorem eq_of_instant_eq (valid : m.isValid = true) (valid' : n.isValid = true) (same : m.instant = n.instant) : m = n := by
  obtain ⟨date, hour, minute, second, leap⟩ := m
  obtain ⟨date', hour', minute', second', leap'⟩ := n
  obtain ⟨inRange, hours, minutes, seconds⟩ := isValid_iff.mp valid
  obtain ⟨inRange', hours', minutes', seconds'⟩ := isValid_iff.mp valid'
  dsimp only [instant, number] at *
  have leaps : leap = leap' := by
    cases leap <;> cases leap' <;> simp at same ⊢ <;> omega
  have fields : date.number = date'.number ∧ hour = hour' ∧ minute = minute' ∧ second = second' := by
    rw [leaps] at same
    omega
  obtain ⟨days, rfl, rfl, rfl⟩ := fields
  rw [leaps, Date.eq_of_number_eq (Date.isDay_of_isValid inRange) (Date.isDay_of_isValid inRange') days]

theorem starts_truncate (valid : m.isValid = true) (inRange : (m.truncate unit).date.isValid = true) :
    Starts unit (m.truncate unit) := by
  obtain ⟨date, hour, minute, second⟩ := isValid_iff.mp valid
  have starts := Date.starts_truncate unit (Date.isDay_of_isValid date)
  cases unit <;> refine ⟨isValid_iff.mpr ⟨inRange, ?_⟩, rfl, starts, ?_, ?_, ?_⟩ <;> simp [truncate, hour, minute, second]

/-- The truncated moment is the last one not after the moment with which a period starts. -/
theorem truncate_greatest (valid : m.isValid = true) : (m.truncate unit).instant ≤ m.instant ∧
    ∀ start : Moment, start.Starts unit → start.instant ≤ m.instant → start.instant ≤ (m.truncate unit).instant := by
  obtain ⟨inRange, hour, minute, second⟩ := isValid_iff.mp valid
  obtain ⟨before, greatest⟩ := @Date.truncate_greatest _ unit (Date.isDay_of_isValid inRange)
  have leap : (0 : Int) ≤ (if m.leap then 1 else 0) ∧ (if m.leap then 1 else 0) ≤ (1 : Int) := by split <;> decide
  have date : (m.truncate unit).date = m.date.truncate unit := by cases unit <;> rfl
  have notLeap : (m.truncate unit).leap = false := by cases unit <;> rfl
  have sameDay : unit ∈ [.hour, .minute, .second] → (m.date.truncate unit).number = m.date.number := by
    cases unit <;> simp [Date.truncate]
  refine ⟨?_, fun start starts le => ?_⟩
  · rw [instant, number, date, notLeap]
    cases unit <;> simp only [truncate, instant, number, Bool.false_eq_true, if_false] <;> omega
  · obtain ⟨inRange', hour', minute', second'⟩ := isValid_iff.mp starts.valid
    have greatest := greatest start.date (Date.isDay_of_isValid inRange') starts.date
    obtain ⟨_, notLeap', _, hours, minutes, seconds⟩ := starts
    rw [instant, number, notLeap', instant, number] at le
    rw [instant, number, notLeap', instant, number, date, notLeap]
    simp only [Bool.false_eq_true, if_false] at le ⊢
    cases unit <;> simp [truncate] at sameDay hours minutes seconds ⊢ <;> omega

theorem truncate_of_starts (starts : m.Starts unit) : m.truncate unit = m := by
  obtain ⟨date, hour, minute, second, leap⟩ := m
  obtain ⟨valid, notLeap, begins, hours, minutes, seconds⟩ := starts
  have sameDate := Date.truncate_of_starts (Date.isDay_of_isValid (isValid_iff.mp valid).1) begins
  dsimp only at notLeap hours minutes seconds sameDate
  cases unit <;> simp at hours minutes seconds <;> simp [truncate, *]

/-- Two moments lie in the same period if no period starts between them. -/
def SamePeriod (unit : TimeUnit) (m n : Moment) : Prop :=
  ∀ start : Moment, start.Starts unit → (start.instant ≤ m.instant ↔ start.instant ≤ n.instant)

theorem instant_truncate_le (valid : m.isValid = true) (valid' : n.isValid = true)
    (inRange : (m.truncate unit).date.isValid = true) (le : m.instant ≤ n.instant) :
    (m.truncate unit).instant ≤ (n.truncate unit).instant :=
  (truncate_greatest valid').2 _ (starts_truncate valid inRange) (Int.le_trans (truncate_greatest valid).1 le)

theorem samePeriod_iff (valid : m.isValid = true) (valid' : n.isValid = true)
    (inRange : (m.truncate unit).date.isValid = true) (inRange' : (n.truncate unit).date.isValid = true) :
    SamePeriod unit m n ↔ m.truncate unit = n.truncate unit := by
  obtain ⟨before, greatest⟩ := @truncate_greatest unit _ valid
  obtain ⟨before', greatest'⟩ := @truncate_greatest unit _ valid'
  have starts := starts_truncate valid inRange
  have starts' := starts_truncate valid' inRange'
  constructor
  · intro same
    refine eq_of_instant_eq starts.valid starts'.valid (Int.le_antisymm ?_ ?_)
    · exact greatest' _ starts ((same _ starts).mp before)
    · exact greatest _ starts' ((same _ starts').mpr before')
  · intro same start begins
    constructor
    · intro le
      exact Int.le_trans (same ▸ greatest start begins le) before'
    · intro le
      exact Int.le_trans (same ▸ greatest' start begins le) before

end Moment

namespace Timestamp

variable {cs : List Char} {t : Timestamp}

theorem isValid_of_read? (read : read? cs = some t) : t.moment.isValid = true ∧
    (t.dateOnly = true → t.moment = { date := t.moment.date }) := by
  unfold read? at read
  split at read
  · rename_i date found
    cases read
    refine ⟨?_, fun _ => rfl⟩
    simp [Moment.isValid, Date.isValid_of_read? found]
  · obtain ⟨m, found, rfl⟩ := Option.map_eq_some_iff.mp read
    exact ⟨Moment.isValid_of_read? found, by rintro ⟨⟩⟩

end Timestamp

variable {unit : TimeUnit} {unitName value result : String}

/-- What a truncated text means: the start of the period of the moment that the text means, written in the same way. -/
theorem dateTrunc_eq (named : TimeUnit.parse? unitName = some unit) (truncated : dateTrunc unitName value = .ok (some result)) :
    ∃ t, Timestamp.read? value.toList = some t ∧ (t.moment.truncate unit).date.isValid = true ∧
      result = Timestamp.render { t with moment := t.moment.truncate unit } ∧
      Timestamp.read? result.toList = some { t with moment := t.moment.truncate unit } := by
  unfold dateTrunc at truncated
  rw [named] at truncated
  cases read : Timestamp.read? value.toList with
  | none =>
    rw [read] at truncated
    cases truncated
  | some t =>
    rw [read] at truncated
    dsimp only at truncated
    split at truncated
    · rename_i inRange
      obtain ⟨valid, plain⟩ := Timestamp.isValid_of_read? read
      cases truncated
      refine ⟨t, rfl, inRange, rfl, Timestamp.read?_render (Moment.starts_truncate valid inRange).valid ?_ fun dateOnly => ?_⟩
      · cases unit <;> rfl
      · have midnight := plain dateOnly
        dsimp only
        rw [midnight]
        cases unit <;> rfl
    · cases truncated

/-- Truncating a text rounds down what it means: to the last moment not after it with which a period starts. A truncated
text stays as it is. Truncating keeps the order, and two texts are truncated to the same moment exactly if they lie in
the same period, so to the same text exactly if both or none of them are a date alone as well. -/
theorem dateTrunc_floor (named : TimeUnit.parse? unitName = some unit)
    (truncated : dateTrunc unitName value = .ok (some result)) : dateTrunc unitName result = .ok (some result) ∧
    ∃ t s, Timestamp.read? value.toList = some t ∧ Timestamp.read? result.toList = some s ∧
      s.moment.Starts unit ∧ s.moment.instant ≤ t.moment.instant ∧
      (∀ start : Moment, start.Starts unit → start.instant ≤ t.moment.instant → start.instant ≤ s.moment.instant) ∧
      ∀ value' result' t' s', dateTrunc unitName value' = .ok (some result') →
        Timestamp.read? value'.toList = some t' → Timestamp.read? result'.toList = some s' →
        (t.moment.instant ≤ t'.moment.instant → s.moment.instant ≤ s'.moment.instant) ∧
        (s.moment = s'.moment ↔ Moment.SamePeriod unit t.moment t'.moment) ∧
        (result = result' ↔ Moment.SamePeriod unit t.moment t'.moment ∧ t.dateOnly = t'.dateOnly) := by
  obtain ⟨t, read, inRange, text, written⟩ := dateTrunc_eq named truncated
  have valid := (Timestamp.isValid_of_read? read).1
  have starts := Moment.starts_truncate valid inRange
  have again := Moment.truncate_of_starts starts
  obtain ⟨before, greatest⟩ := @Moment.truncate_greatest unit _ valid
  refine ⟨?_, t, _, read, written, starts, before, greatest, fun value' result' t' s' truncated' read' written' => ?_⟩
  · rw [dateTrunc, written, named]
    dsimp only
    rw [again, if_pos inRange, ← text]
  · obtain ⟨t₁, read₁, inRange', text', written₁⟩ := dateTrunc_eq named truncated'
    cases read'.symm.trans read₁
    cases written'.symm.trans written₁
    have valid' := (Timestamp.isValid_of_read? read').1
    have same := Moment.samePeriod_iff valid valid' inRange inRange'
    refine ⟨Moment.instant_truncate_le valid valid' inRange, same.symm, ?_⟩
    rw [same]
    constructor
    · rintro rfl
      have same' := written.symm.trans written₁
      simp only [Option.some.injEq, Timestamp.mk.injEq] at same'
      exact same'
    · rintro ⟨moments, forms⟩
      rw [text, text', moments, forms]

/-- A week that starts in the old year. A day of the new year is truncated to its Monday, and the leap second that ends
the old year lies in the same week. -/
theorem week_of_new_year : TimeUnit.parse? "Week" = some .week ∧
    dateTrunc "Week" "2021-01-02" = .ok (some "2020-12-28") ∧ dateTrunc "Week" "2020-12-28" = .ok (some "2020-12-28") ∧
    Moment.SamePeriod .week { date := ⟨2021, 1, 2⟩ } ⟨⟨2020, 12, 31⟩, 23, 59, 59, true⟩ := by
  have named : TimeUnit.parse? "Week" = some .week := by decide +kernel
  have truncated : dateTrunc "Week" "2021-01-02" = .ok (some "2020-12-28") := by decide +kernel
  have truncated' : dateTrunc "Week" "2020-12-31 23:59:60" = .ok (some "2020-12-28 00:00:00") := by decide +kernel
  obtain ⟨again, t, s, read, written, _, _, _, others⟩ := dateTrunc_floor named truncated
  have day : Timestamp.read? "2021-01-02".toList = some ⟨{ date := ⟨2021, 1, 2⟩ }, true⟩ := by decide +kernel
  have monday : Timestamp.read? "2020-12-28".toList = some ⟨{ date := ⟨2020, 12, 28⟩ }, true⟩ := by decide +kernel
  cases read.symm.trans day
  cases written.symm.trans monday
  exact ⟨named, truncated, again, (others _ _ _ _ truncated' (by decide +kernel : _ =
    some (Timestamp.mk ⟨⟨2020, 12, 31⟩, 23, 59, 59, true⟩ false)) (by decide +kernel : _ =
    some (Timestamp.mk { date := ⟨2020, 12, 28⟩ } false))).2.1.mp rfl⟩

end SemanticLayer
