import Mathlib.Data.List.Lex
import Mathlib.Order.Monotone.Basic
import Mathlib.Tactic.IntervalCases
import AdaOS.Calendar

namespace Calendar
set_option autoImplicit true

/-- The days from 1 March of year 0 to 1 March of another year. -/
def marchDays (years : Nat) : Nat := 365 * years + years / 4 - years / 100 + years / 400

theorem monthStart_march (year : Nat) : monthStart year 3 = marchDays year + 60 := by
  have hy := daysBeforeYear_eq year
  have hfour : (year + 3) / 4 = year / 4 + if year % 4 = 0 then 0 else 1 := by
    split_ifs <;> omega
  have hcentury : (year + 99) / 100 = year / 100 + if year % 100 = 0 then 0 else 1 := by
    split_ifs <;> omega
  have hera : (year + 399) / 400 = year / 400 + if year % 400 = 0 then 0 else 1 := by
    split_ifs <;> omega
  rw [hfour, hcentury, hera] at hy
  clear hfour hcentury hera
  simp only [monthStart, daysBeforeMonth, monthLength, marchDays]
  by_cases hl : IsLeap year
  · rw [if_pos hl]
    unfold IsLeap at hl
    split_ifs at hy <;> omega
  · rw [if_neg hl]
    unfold IsLeap at hl
    split_ifs at hy <;> omega

theorem marchDays_era (era years : Nat) :
    marchDays (400 * era + years) = 146097 * era + marchDays years := by
  unfold marchDays
  omega

/-- The year that day `doe` of an era falls in, when years begin in March. -/
def yearOfEra (doe : Nat) : Nat := (doe - doe / 1460 + doe / 36524 - doe / 146096) / 365

theorem yearOfEra_mono : Monotone yearOfEra := by
  refine monotone_nat_of_le_succ fun doe => ?_
  unfold yearOfEra
  apply Nat.div_le_div_right
  omega

theorem yearOfEra_lt (h : doe < 146097) : yearOfEra doe < 400 := by
  unfold yearOfEra
  omega

theorem yearOfEra_ends : ∀ year < 400,
    yearOfEra (marchDays year) = year ∧ yearOfEra (marchDays (year + 1) - 1) = year := by
  decide +kernel

/-- The other days of the year lie between these two. -/
theorem yearOfEra_spec (h : doe < 146097) :
    marchDays (yearOfEra doe) ≤ doe ∧ doe < marchDays (yearOfEra doe + 1) := by
  have hlt := yearOfEra_lt h
  constructor
  · by_contra hbefore
    obtain ⟨year, hyear⟩ : ∃ year, yearOfEra doe = year + 1 := by
      refine Nat.exists_eq_succ_of_ne_zero fun hzero => hbefore ?_
      rw [hzero]
      exact Nat.zero_le _
    rw [hyear] at hbefore hlt
    have hlast := (yearOfEra_ends year (Nat.lt_of_succ_lt hlt)).2
    have hle := yearOfEra_mono (show doe ≤ marchDays (year + 1) - 1 by omega)
    omega
  · by_contra hafter
    rw [Nat.not_lt] at hafter
    rcases Nat.lt_or_ge (yearOfEra doe + 1) 400 with hnext | hlast
    · have hfirst := (yearOfEra_ends _ hnext).1
      have hle := yearOfEra_mono hafter
      omega
    · have hera : yearOfEra doe + 1 = 400 := Nat.le_antisymm hlt hlast
      rw [hera] at hafter
      exact Nat.not_lt_of_le hafter h

/-- The year of a day counted from 1 March of year 0, when years begin in March. -/
def marchYear (n : Nat) : Nat := 400 * (n / 146097) + yearOfEra (n % 146097)

theorem marchYear_spec (n : Nat) :
    marchDays (marchYear n) ≤ n ∧ n < marchDays (marchYear n + 1) := by
  obtain ⟨hle, hlt⟩ := yearOfEra_spec (Nat.mod_lt n (show 0 < 146097 by decide))
  rw [marchYear, Nat.add_assoc, marchDays_era, marchDays_era]
  omega

/-- The month that a day of the year falls in, March being month 0. -/
def marchMonth (doy : Nat) : Nat := (5 * doy + 2) / 153

/-- The days of a year before a month, when years begin in March. -/
def daysBeforeMarchMonth (mp : Nat) : Nat := (153 * mp + 2) / 5

theorem marchMonth_spec (doy : Nat) :
    daysBeforeMarchMonth (marchMonth doy) ≤ doy ∧
      doy < daysBeforeMarchMonth (marchMonth doy + 1) := by
  unfold marchMonth daysBeforeMarchMonth
  omega

theorem marchMonth_lt (h : doy < 366) : marchMonth doy < 12 := by
  unfold marchMonth
  omega

/-- The number of a month in the year that begins in January. -/
def januaryMonth (mp : Nat) : Nat := if mp < 10 then mp + 3 else mp - 9

/-- January and February belong to the next year. -/
def januaryYear (year mp : Nat) : Nat := if januaryMonth mp ≤ 2 then year + 1 else year

theorem monthStart_january (year : Nat) (h : mp < 12) :
    monthStart (januaryYear year mp) (januaryMonth mp) =
      monthStart year 3 + daysBeforeMarchMonth mp := by
  rcases Nat.lt_or_ge mp 10 with hm | hm
  · interval_cases mp
    all_goals
      simp +arith [januaryYear, januaryMonth, daysBeforeMarchMonth, monthStart, daysBeforeMonth,
        monthLength]
  · have hjan : monthStart (year + 1) 1 = monthStart year 3 + 306 := by
      rw [monthStart_nextYear]
      simp +arith only [monthStart, daysBeforeMonth, monthLength]
    obtain rfl | rfl : mp = 10 ∨ mp = 11 := by omega
    · exact hjan
    · have hfeb : monthStart (year + 1) 2 = monthStart (year + 1) 1 + 31 :=
        monthStart_succ _ Nat.one_pos
      rw [hjan] at hfeb
      exact hfeb

theorem monthStart_january_succ (year : Nat) (h : mp < 11) :
    monthStart (januaryYear year mp) (januaryMonth mp + 1) =
      monthStart year 3 + daysBeforeMarchMonth (mp + 1) := by
  rw [← monthStart_january year (Nat.succ_lt_succ h)]
  by_cases hdec : mp = 9
  · rw [hdec]
    exact (monthStart_nextYear year).symm
  · have hm : januaryMonth (mp + 1) = januaryMonth mp + 1 := by
      unfold januaryMonth
      split_ifs <;> omega
    have hy : januaryYear year (mp + 1) = januaryYear year mp := by
      unfold januaryYear januaryMonth
      split_ifs <;> omega
    rw [hm, hy]

/-- The day of the year, when years begin in March, counted from 0. -/
def dayOfMarchYear (n : Nat) : Nat := n - marchDays (marchYear n)

def civilMonth (n : Nat) : Nat := januaryMonth (marchMonth (dayOfMarchYear n))

def civilYear (n : Nat) : Nat := januaryYear (marchYear n) (marchMonth (dayOfMarchYear n))

def civilDay (n : Nat) : Nat :=
  dayOfMarchYear n - daysBeforeMarchMonth (marchMonth (dayOfMarchYear n)) + 1

theorem marchDays_add_dayOfMarchYear (n : Nat) :
    marchDays (marchYear n) + dayOfMarchYear n = n :=
  Nat.add_sub_of_le (marchYear_spec n).1

theorem dayOfMarchYear_lt (n : Nat) : dayOfMarchYear n < 366 := by
  obtain ⟨_, hlt⟩ := marchYear_spec n
  have hn := marchDays_add_dayOfMarchYear n
  unfold marchDays at hlt hn
  omega

theorem civilMonth_range (n : Nat) : 0 < civilMonth n ∧ civilMonth n ≤ 12 := by
  have h := marchMonth_lt (dayOfMarchYear_lt n)
  rw [civilMonth, januaryMonth]
  split_ifs <;> omega

theorem civilDay_start (n : Nat) :
    monthStart (civilYear n) (civilMonth n) + civilDay n = n + 61 := by
  have hn := marchDays_add_dayOfMarchYear n
  obtain ⟨hfrom, _⟩ := marchMonth_spec (dayOfMarchYear n)
  have hstart := monthStart_january (marchYear n) (marchMonth_lt (dayOfMarchYear_lt n))
  rw [monthStart_march] at hstart
  rw [civilYear, civilMonth, civilDay, hstart]
  omega

theorem lt_civilMonth_stop (n : Nat) : n + 60 < monthStart (civilYear n) (civilMonth n + 1) := by
  have hn := marchDays_add_dayOfMarchYear n
  obtain ⟨_, hlt⟩ := marchYear_spec n
  rw [civilYear, civilMonth]
  obtain hmp | hmp := Nat.lt_or_ge (marchMonth (dayOfMarchYear n)) 11
  · obtain ⟨_, hto⟩ := marchMonth_spec (dayOfMarchYear n)
    rw [monthStart_january_succ (marchYear n) hmp, monthStart_march]
    omega
  · -- February ends with the year that began in March.
    have hfeb : marchMonth (dayOfMarchYear n) = 11 :=
      Nat.le_antisymm (Nat.le_of_lt_succ (marchMonth_lt (dayOfMarchYear_lt n))) hmp
    have hstop : monthStart (januaryYear (marchYear n) 11) (januaryMonth 11 + 1) =
        marchDays (marchYear n + 1) + 60 := monthStart_march _
    rw [hfeb, hstop]
    omega

theorem civilDay_le (n : Nat) : civilDay n ≤ monthLength (civilYear n) (civilMonth n) := by
  have hstart := civilDay_start n
  have hstop := lt_civilMonth_stop n
  rw [monthStart_succ _ (civilMonth_range n).1] at hstop
  omega

/-- The date of day `n` after 1 March of year 0. -/
def civilDate (n : Nat) : Date where
  year := civilYear n
  month := civilMonth n
  day := civilDay n
  month_pos := (civilMonth_range n).1
  month_le := (civilMonth_range n).2
  day_pos := Nat.succ_pos _
  day_le := civilDay_le n

theorem civilDate_dayNumber (n : Nat) : (civilDate n).dayNumber = n + 60 := by
  have hstart := civilDay_start n
  have hpos := (civilDate n).day_pos
  rw [Date.dayNumber]
  simp only [civilDate] at hpos ⊢
  omega

namespace Date

theorem dayNumber_lt_of_month_lt (d : Date) (hm : d.month < m) :
    d.dayNumber < monthStart d.year m := by
  have hday := d.day_le
  have hpos := d.day_pos
  calc d.dayNumber < monthStart d.year d.month + monthLength d.year d.month := by
        rw [dayNumber]
        omega
    _ = monthStart d.year (d.month + 1) := (monthStart_succ d.year d.month_pos).symm
    _ ≤ monthStart d.year m := monthStart_mono d.year (Nat.succ_pos _) hm

theorem dayNumber_lt_of_year_lt (d : Date) (hy : d.year < y) (hm : 0 < m) :
    d.dayNumber < monthStart y m := by
  calc d.dayNumber < monthStart d.year 13 :=
        d.dayNumber_lt_of_month_lt (Nat.lt_succ_of_le d.month_le)
    _ = monthStart (d.year + 1) 1 := (monthStart_nextYear d.year).symm
    _ ≤ monthStart y 1 := monthStart_le_of_year_le Nat.one_pos (by decide) hy
    _ ≤ monthStart y m := monthStart_mono y Nat.one_pos hm

theorem dayNumber_lt {d d' : Date} (h : d.year < d'.year ∨ d.year = d'.year ∧
    (d.month < d'.month ∨ d.month = d'.month ∧ d.day < d'.day)) :
    d.dayNumber < d'.dayNumber := by
  obtain hy | ⟨hy, hm | ⟨hm, hd⟩⟩ := h
  · exact Nat.lt_of_lt_of_le (d.dayNumber_lt_of_year_lt hy d'.month_pos) (Nat.le_add_right _ _)
  · have hlt := d.dayNumber_lt_of_month_lt hm
    rw [hy] at hlt
    exact Nat.lt_of_lt_of_le hlt (Nat.le_add_right _ _)
  · have hpos := d.day_pos
    rw [dayNumber, dayNumber, hy, hm]
    omega

end Date

namespace DateTime

/-- The fields of a date and time, the coarsest first. -/
def fields (t : DateTime) : List Nat := [t.year, t.month, t.day, t.hour, t.minute, t.second]

theorem seconds_lt {t u : DateTime} (h : t.fields < u.fields) : t.seconds < u.seconds := by
  have hh := t.hour_lt
  have hm := t.minute_lt
  have hs := t.second_lt
  simp only [fields, List.cons_lt_cons_iff, List.not_lt_nil, and_false, or_false] at h
  have hdate (hlt : t.year < u.year ∨ t.year = u.year ∧
      (t.month < u.month ∨ t.month = u.month ∧ t.day < u.day)) : t.dayNumber < u.dayNumber :=
    Date.dayNumber_lt hlt
  have hsame (hy : t.year = u.year) (hmon : t.month = u.month) (hd : t.day = u.day) :
      t.dayNumber = u.dayNumber := by
    rw [Date.dayNumber, Date.dayNumber, hy, hmon, hd]
  simp only [seconds, minuteNumber, hourNumber]
  obtain hy | ⟨hy, hmon | ⟨hmon, hd | ⟨hd, htime⟩⟩⟩ := h
  · have := hdate (.inl hy)
    omega
  · have := hdate (.inr ⟨hy, .inl hmon⟩)
    omega
  · have := hdate (.inr ⟨hy, .inr ⟨hmon, hd⟩⟩)
    omega
  · have := hsame hy hmon hd
    omega

theorem fields_injective : Function.Injective fields := by
  intro t u h
  obtain ⟨⟨y, m, d, _, _, _, _⟩, hh, mi, s, _, _, _⟩ := t
  obtain ⟨⟨y', m', d', _, _, _, _⟩, hh', mi', s', _, _, _⟩ := u
  simp only [fields, List.cons.injEq, and_true] at h
  obtain ⟨rfl, rfl, rfl, rfl, rfl, rfl⟩ := h
  rfl

theorem fields_lt_iff (t u : DateTime) : t.fields < u.fields ↔ t.seconds < u.seconds := by
  refine ⟨seconds_lt, fun h => ?_⟩
  obtain hlt | heq | hgt := lt_trichotomy t.fields u.fields
  · exact hlt
  · rw [fields_injective heq] at h
    exact (Nat.lt_irrefl _ h).elim
  · exact (Nat.lt_asymm h (seconds_lt hgt)).elim

theorem seconds_injective : Function.Injective seconds := by
  intro t u h
  obtain hlt | heq | hgt := lt_trichotomy t.fields u.fields
  · exact absurd h (Nat.ne_of_lt (seconds_lt hlt))
  · exact fields_injective heq
  · exact absurd h (Nat.ne_of_gt (seconds_lt hgt))

end DateTime

end Calendar
