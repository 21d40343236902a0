import Mathlib.Logic.Function.Iterate
import Mathlib.Tactic.Common

namespace Calendar
set_option autoImplicit true

/-- The leap years of the Gregorian calendar, also before it was in use. -/
def IsLeap (year : Nat) : Prop := year % 4 = 0 ∧ (year % 100 ≠ 0 ∨ year % 400 = 0)

instance : DecidablePred IsLeap := fun year =>
  inferInstanceAs (Decidable (year % 4 = 0 ∧ (year % 100 ≠ 0 ∨ year % 400 = 0)))

def yearLength (year : Nat) : Nat := if IsLeap year then 366 else 365

def monthLength (year : Nat) : Nat → Nat
  | 2 => if IsLeap year then 29 else 28
  | 4 | 6 | 9 | 11 => 30
  | _ => 31

theorem monthLength_pos (year month : Nat) : 0 < monthLength year month := by
  unfold monthLength
  split
  · split_ifs <;> decide
  all_goals decide

theorem monthLength_le (year month : Nat) : monthLength year month ≤ 31 := by
  unfold monthLength
  split
  · split_ifs <;> decide
  all_goals decide

/-- The days from the start of year 0. -/
def daysBeforeYear : Nat → Nat
  | 0 => 0
  | year + 1 => daysBeforeYear year + yearLength year

/-- The days of a year before a month, the first month being 1. -/
def daysBeforeMonth (year : Nat) : Nat → Nat
  | 0 => 0
  | 1 => 0
  | month + 2 => daysBeforeMonth year (month + 1) + monthLength year (month + 1)

def monthStart (year month : Nat) : Nat := daysBeforeYear year + daysBeforeMonth year month

/-- Every fourth year is a leap year, but for three centuries in four. -/
theorem daysBeforeYear_eq (year : Nat) :
    daysBeforeYear year + (year + 99) / 100 =
      365 * year + (year + 3) / 4 + (year + 399) / 400 := by
  induction year with
  | zero => rfl
  | succ year ih =>
    have hfour : (year + 1 + 3) / 4 = (year + 3) / 4 + if year % 4 = 0 then 1 else 0 := by
      split_ifs <;> omega
    have hcentury : (year + 1 + 99) / 100 =
        (year + 99) / 100 + if year % 100 = 0 then 1 else 0 := by
      split_ifs <;> omega
    have hera : (year + 1 + 399) / 400 =
        (year + 399) / 400 + if year % 400 = 0 then 1 else 0 := by
      split_ifs <;> omega
    rw [daysBeforeYear, yearLength, hfour, hcentury, hera]
    clear hfour hcentury hera
    by_cases hl : IsLeap year
    · rw [if_pos hl]
      unfold IsLeap at hl
      split_ifs <;> omega
    · rw [if_neg hl]
      unfold IsLeap at hl
      split_ifs <;> omega

theorem monthStart_succ (year : Nat) (h : 0 < month) :
    monthStart year (month + 1) = monthStart year month + monthLength year month := by
  cases month with
  | zero => exact absurd h (Nat.lt_irrefl 0)
  | succ month => rw [monthStart, daysBeforeMonth, ← Nat.add_assoc, monthStart]

theorem monthStart_nextYear (year : Nat) : monthStart (year + 1) 1 = monthStart year 13 := by
  simp only [monthStart, daysBeforeMonth, daysBeforeYear, yearLength, monthLength]
  split_ifs <;> omega

theorem daysBeforeYear_le (year : Nat) : daysBeforeYear year ≤ 366 * year := by
  induction year with
  | zero => exact Nat.le_refl 0
  | succ year ih =>
    rw [daysBeforeYear, yearLength]
    split_ifs <;> omega

theorem monthStart_mono (year : Nat) (hpos : 0 < month) (h : month ≤ month') :
    monthStart year month ≤ monthStart year month' := by
  induction h with
  | refl => exact Nat.le_refl _
  | step hle ih =>
    rw [monthStart_succ year (Nat.lt_of_lt_of_le hpos hle)]
    exact Nat.le_trans ih (Nat.le_add_right _ _)

theorem daysBeforeMonth_le (year : Nat) (hpos : 0 < month) (hle : month ≤ 12) :
    daysBeforeMonth year month ≤ 366 := by
  have hlast := monthStart_mono year hpos (Nat.le_succ_of_le hle)
  rw [← monthStart_nextYear] at hlast
  simp only [monthStart, daysBeforeYear, yearLength, daysBeforeMonth] at hlast
  split_ifs at hlast <;> omega

theorem monthStart_le_of_year_le (hpos : 0 < month) (hle : month ≤ 12) (h : year ≤ year') :
    monthStart year month ≤ monthStart year' month := by
  induction h with
  | refl => exact Nat.le_refl _
  | @step year' _ ih =>
    calc monthStart year month ≤ monthStart year' month := ih
      _ ≤ monthStart year' 13 := monthStart_mono year' hpos (by omega)
      _ = monthStart (year' + 1) 1 := (monthStart_nextYear year').symm
      _ ≤ monthStart (year' + 1) month := monthStart_mono _ Nat.one_pos hpos

structure Date where
  year : Nat
  month : Nat
  day : Nat
  month_pos : 0 < month
  month_le : month ≤ 12
  day_pos : 0 < day
  day_le : day ≤ monthLength year month
  deriving DecidableEq

namespace Date

theorem day_le_thirtyOne (d : Date) : d.day ≤ 31 := Nat.le_trans d.day_le (monthLength_le _ _)

/-- The days from the start of year 0 to a date. -/
def dayNumber (d : Date) : Nat := monthStart d.year d.month + (d.day - 1)

/-- The day after. -/
def next (d : Date) : Date :=
  if hd : d.day < monthLength d.year d.month then
    { d with day := d.day + 1, day_pos := Nat.succ_pos _, day_le := hd }
  else if hm : d.month < 12 then
    { d with
      month := d.month + 1, day := 1
      month_pos := Nat.succ_pos _, month_le := hm
      day_pos := Nat.one_pos, day_le := monthLength_pos _ _ }
  else ⟨d.year + 1, 1, 1, by decide, by decide, by decide, monthLength_pos _ _⟩

def firstDay (year : Nat) : Date :=
  ⟨year, 1, 1, by decide, by decide, by decide, monthLength_pos _ _⟩

theorem next_dayNumber (d : Date) : d.next.dayNumber = d.dayNumber + 1 := by
  have hpos := d.day_pos
  have hle := d.day_le
  rw [next]
  split_ifs with hd hm
  · simp only [dayNumber]
    omega
  · simp only [dayNumber, monthStart_succ d.year d.month_pos]
    omega
  · have hlast : d.month = 12 := Nat.le_antisymm d.month_le (Nat.not_lt.1 hm)
    have hdec := monthStart_succ d.year (show 0 < 12 by decide)
    rw [hlast] at hd hle
    simp only [dayNumber, monthStart_nextYear, hdec, hlast]
    omega

theorem monthStart_le_next (d : Date) :
    monthStart d.year d.month ≤ monthStart d.next.year d.next.month := by
  rw [next]
  split_ifs with hd hm
  · exact Nat.le_refl _
  · rw [monthStart_succ d.year d.month_pos]
    exact Nat.le_add_right _ _
  · have hlast : d.month = 12 := Nat.le_antisymm d.month_le (Nat.not_lt.1 hm)
    rw [monthStart_nextYear, hlast, monthStart_succ d.year (show 0 < 12 by decide)]
    exact Nat.le_add_right _ _

theorem next_year (d : Date) : d.next.year = d.year ∨ d.next.year = d.year + 1 := by
  rw [next]
  split_ifs
  · exact .inl rfl
  · exact .inl rfl
  · exact .inr rfl

end Date

/-- The seconds from the start of year 0 to a time of day. -/
def secondsAt (year month day hour minute second : Nat) : Nat :=
  (((monthStart year month + (day - 1)) * 24 + hour) * 60 + minute) * 60 + second

/-- A date with a time of day. -/
structure DateTime extends Date where
  hour : Nat
  minute : Nat
  second : Nat
  hour_lt : hour < 24
  minute_lt : minute < 60
  second_lt : second < 60
  deriving DecidableEq

namespace DateTime

def hourNumber (t : DateTime) : Nat := t.dayNumber * 24 + t.hour

def minuteNumber (t : DateTime) : Nat := t.hourNumber * 60 + t.minute

/-- The seconds from the start of year 0. -/
def seconds (t : DateTime) : Nat := t.minuteNumber * 60 + t.second

/-- A second later. -/
def tick (t : DateTime) : DateTime :=
  if hs : t.second + 1 < 60 then { t with second := t.second + 1, second_lt := hs }
  else if hm : t.minute + 1 < 60 then
    { t with minute := t.minute + 1, second := 0, minute_lt := hm, second_lt := by decide }
  else if hh : t.hour + 1 < 24 then
    { t with
      hour := t.hour + 1, minute := 0, second := 0
      hour_lt := hh, minute_lt := by decide, second_lt := by decide }
  else ⟨t.next, 0, 0, 0, by decide, by decide, by decide⟩

def midnight (d : Date) : DateTime := ⟨d, 0, 0, 0, by decide, by decide, by decide⟩

theorem tick_seconds (t : DateTime) : t.tick.seconds = t.seconds + 1 := by
  have hs := t.second_lt
  have hm := t.minute_lt
  have hh := t.hour_lt
  rw [tick]
  split_ifs
  · rfl
  · simp only [seconds, minuteNumber, hourNumber]
    omega
  · simp only [seconds, minuteNumber, hourNumber]
    omega
  · simp only [seconds, minuteNumber, hourNumber, Date.next_dayNumber]
    omega

theorem tick_toDate (t : DateTime) : t.tick.toDate = t.toDate ∨ t.tick.toDate = t.next := by
  rw [tick]
  split_ifs
  · exact .inl rfl
  · exact .inl rfl
  · exact .inl rfl
  · exact .inr rfl

theorem tick_year (t : DateTime) : t.tick.year = t.year ∨ t.tick.year = t.year + 1 := by
  obtain h | h := t.tick_toDate
  · exact .inl (congrArg Date.year h)
  · rw [h]
    exact t.next_year

/-- No count of units goes back when the clock goes on. -/
structure Before (t u : DateTime) : Prop where
  seconds : t.seconds ≤ u.seconds
  monthStart : monthStart t.year t.month ≤ monthStart u.year u.month
  year : t.year ≤ u.year

namespace Before

theorem minuteNumber (h : Before t u) : t.minuteNumber ≤ u.minuteNumber := by
  have hle := h.seconds
  have ht := t.second_lt
  have hu := u.second_lt
  simp only [DateTime.seconds] at hle
  omega

theorem hourNumber (h : Before t u) : t.hourNumber ≤ u.hourNumber := by
  have hle := h.minuteNumber
  have ht := t.minute_lt
  have hu := u.minute_lt
  simp only [DateTime.minuteNumber] at hle
  omega

theorem dayNumber (h : Before t u) : t.dayNumber ≤ u.dayNumber := by
  have hle := h.hourNumber
  have ht := t.hour_lt
  have hu := u.hour_lt
  simp only [DateTime.hourNumber] at hle
  omega

end Before

theorem Before.trans (h : Before t u) (h' : Before u v) : Before t v :=
  ⟨Nat.le_trans h.seconds h'.seconds, Nat.le_trans h.monthStart h'.monthStart,
    Nat.le_trans h.year h'.year⟩

theorem before_tick (t : DateTime) : Before t t.tick where
  seconds := by
    rw [tick_seconds]
    exact Nat.le_succ _
  monthStart := by
    obtain h | h := t.tick_toDate
    · exact Nat.le_of_eq (congrArg (fun d => Calendar.monthStart d.year d.month) h.symm)
    · rw [h]
      exact t.monthStart_le_next
  year := by
    obtain h | h := t.tick_year
    · exact Nat.le_of_eq h.symm
    · rw [h]
      exact Nat.le_succ _

theorem before_ticks (t : DateTime) (n : Nat) : Before t (tick^[n] t) := by
  induction n with
  | zero => exact ⟨Nat.le_refl _, Nat.le_refl _, Nat.le_refl _⟩
  | succ n ih =>
    rw [Function.iterate_succ_apply']
    exact ih.trans (before_tick _)

end DateTime

end Calendar
