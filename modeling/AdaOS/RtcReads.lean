import AdaOS.RtcDecode

namespace AdaOS
set_option autoImplicit true
open Calendar

/-- What the clock shows at each read, when `passed i` seconds pass between the reads `i` and
`i + 1`. -/
def clockAt (start : DateTime) (passed : Nat → Nat) : Nat → DateTime
  | 0 => start
  | i + 1 => DateTime.tick^[passed i] (clockAt start passed i)

def unixTime (t : DateTime) : Int := t.seconds - unixEpoch

/-- The units that begin between the read of one field and that of the next one, in seconds: the
reading has them whole. -/
def carried (t : Nat → DateTime) : Nat :=
  60 * ((t 2).minuteNumber - (t 1).minuteNumber) +
    3600 * ((t 3).hourNumber - (t 2).hourNumber) +
    86400 * ((t 4).dayNumber - (t 3).dayNumber) +
    86400 * (monthStart (t 5).year (t 5).month - monthStart (t 4).year (t 4).month) +
    86400 * (monthStart (t 6).year (t 5).month - monthStart (t 5).year (t 5).month)

theorem ticks_seconds (t : DateTime) (n : Nat) : (DateTime.tick^[n] t).seconds = t.seconds + n := by
  induction n with
  | zero => rfl
  | succ n ih => rw [Function.iterate_succ_apply', DateTime.tick_seconds, ih, Nat.add_assoc]

theorem before_clockAt (start : DateTime) (passed : Nat → Nat) (i : Nat) :
    (clockAt start passed i).Before (clockAt start passed (i + 1)) :=
  DateTime.before_ticks _ _

theorem secondsAt_reading {t : Nat → DateTime} (h : ∀ i, (t i).Before (t (i + 1))) :
    secondsAt (t 6).year (t 5).month (t 4).day (t 3).hour (t 2).minute (t 1).second =
      (t 1).seconds + carried t := by
  have hminute : (t 1).minuteNumber ≤ (t 2).minuteNumber := (h 1).minuteNumber
  have hhour : (t 2).hourNumber ≤ (t 3).hourNumber := (h 2).hourNumber
  have hday : (t 3).dayNumber ≤ (t 4).dayNumber := (h 3).dayNumber
  have hmonth : monthStart (t 4).year (t 4).month ≤ monthStart (t 5).year (t 5).month :=
    (h 4).monthStart
  have hyear : monthStart (t 5).year (t 5).month ≤ monthStart (t 6).year (t 5).month :=
    monthStart_le_of_year_le (t 5).month_pos (t 5).month_le (h 5).year
  have h1 : (t 1).seconds = (t 1).minuteNumber * 60 + (t 1).second := rfl
  have h2 : (t 2).minuteNumber = (t 2).hourNumber * 60 + (t 2).minute := rfl
  have h3 : (t 3).hourNumber = (t 3).dayNumber * 24 + (t 3).hour := rfl
  have h4 : (t 4).dayNumber = monthStart (t 4).year (t 4).month + ((t 4).day - 1) := rfl
  rw [secondsAt, carried]
  omega

theorem century_tick {t : DateTime} (h : 10 ≤ t.tick.year % 100) :
    t.tick.year / 100 = t.year / 100 := by
  obtain hy | hy := t.tick_year
  · rw [hy]
  · rw [hy] at h ⊢
    omega

theorem century_ticks {t : DateTime}
    (h : ∀ k ≤ n, 10 ≤ (DateTime.tick^[k] t).year % 100) :
    (DateTime.tick^[n] t).year / 100 = t.year / 100 := by
  induction n with
  | zero => rfl
  | succ n ih =>
    have hlast := h (n + 1) (Nat.le_refl _)
    rw [Function.iterate_succ_apply'] at hlast ⊢
    rw [century_tick hlast]
    exact ih fun k hk => h k (Nat.le_succ_of_le hk)

/-- The year of the century is at least ten from the first read to the last one. -/
def LateInCentury (start : DateTime) (passed : Nat → Nat) : Prop :=
  ∀ i < 6, ∀ k ≤ passed i, 10 ≤ (DateTime.tick^[k] (clockAt start passed i)).year % 100

theorem LateInCentury.century (h : LateInCentury start passed) (hi : i ≤ 6) :
    (clockAt start passed i).year / 100 = start.year / 100 := by
  induction i with
  | zero => rfl
  | succ i ih => exact (century_ticks (h i hi)).trans (ih (Nat.le_of_succ_le hi))

theorem LateInCentury.year_lt (h : LateInCentury start passed) (hyear : start.year < 10000)
    (hi : i ≤ 6) : (clockAt start passed i).year < 10000 := by
  have hc := h.century hi
  omega

theorem LateInCentury.fullYear (h : LateInCentury start passed) :
    yearAsRead ((clockAt start passed 0).year / 100) ((clockAt start passed 6).year % 100) =
      (clockAt start passed 6).year := by
  have hc : (clockAt start passed 6).year / 100 = (clockAt start passed 0).year / 100 :=
    h.century (Nat.le_refl 6)
  have hten : 10 ≤ (clockAt start passed 6).year % 100 :=
    h 5 (by decide) (passed 5) (Nat.le_refl _)
  rw [← hc]
  exact yearAsRead_of_le hten

theorem secondsAt_lt (hy : year < 10000) (hpos : 0 < month) (hle : month ≤ 12) (hd : day ≤ 31)
    (hh : hour < 24) (hm : minute < 60) (hs : second < 60) :
    secondsAt year month day hour minute second < 2 ^ 40 := by
  have hyear := daysBeforeYear_le year
  have hmonth := daysBeforeMonth_le year hpos hle
  rw [secondsAt, monthStart]
  omega

theorem seconds_lt (t : DateTime) (hy : t.year < 10000) : t.seconds < 2 ^ 40 :=
  secondsAt_lt hy t.month_pos t.month_le t.day_le_thirtyOne t.hour_lt t.minute_lt t.second_lt

theorem toNat_ofInt_unixTime {n : Nat} (hn : n < 2 ^ 40) :
    ((BitVec.ofInt 64 ((n : Int) - unixEpoch)).toNat : Int) =
      if (n : Int) - unixEpoch < 0 then (n : Int) - unixEpoch + 2 ^ 64
      else (n : Int) - unixEpoch := by
  rw [BitVec.toNat_ofInt, unixEpoch_eq]
  split_ifs <;> omega

theorem toNat_getUnixTimestamp (hc : century ≠ 0) (hyear : start.year < 10000)
    (hten : LateInCentury start passed)
    (h : ∀ i < 7, CmosHolds century (cmos i) (clockAt start passed i)) :
    ((getUnixTimestamp century cmos).toNat : Int) =
      if unixTime (clockAt start passed 1) + carried (clockAt start passed) < 0 then
        unixTime (clockAt start passed 1) + carried (clockAt start passed) + 2 ^ 64
      else unixTime (clockAt start passed 1) + carried (clockAt start passed) := by
  let t := clockAt start passed
  have hyears (i : Nat) (hi : i < 7) : (t i).year < 10000 :=
    hten.year_lt hyear (Nat.le_of_lt_succ hi)
  have hreading : secondsAt (t 6).year (t 5).month (t 4).day (t 3).hour (t 2).minute
      (t 1).second = (t 1).seconds + carried t := secondsAt_reading (before_clockAt start passed)
  have hlt := secondsAt_lt (hyears 6 (by decide)) (t 5).month_pos (t 5).month_le
    (t 4).day_le_thirtyOne (t 3).hour_lt (t 2).minute_lt (t 1).second_lt
  have hun : unixTime (t 1) + carried t = ((t 1).seconds + carried t : Nat) - unixEpoch := by
    rw [unixTime]
    omega
  rw [hreading] at hlt
  rw [getUnixTimestamp_eq hc h hyears, hten.fullYear, hreading, toNat_ofInt_unixTime hlt,
    ← hun]

theorem clockAt_seconds (start : DateTime) (passed : Nat → Nat) (i : Nat) :
    (clockAt start passed (i + 1)).seconds = (clockAt start passed i).seconds + passed i :=
  ticks_seconds _ _

theorem seconds_last (start : DateTime) (passed : Nat → Nat) :
    (clockAt start passed 6).seconds =
      (clockAt start passed 1).seconds +
        (passed 1 + passed 2 + passed 3 + passed 4 + passed 5) := by
  rw [clockAt_seconds, clockAt_seconds, clockAt_seconds, clockAt_seconds, clockAt_seconds]
  omega

/-- A timestamp lies between the first read and the last one exactly when what the reading
carries is no more than the seconds that pass from the second read on, and it is not before
1970. -/
theorem timestamp_untorn_iff (start : DateTime) (passed : Nat → Nat) (century : BitVec 8)
    (cmos : Nat → BitVec 8 → BitVec 8) (hc : century ≠ 0) (hyear : start.year < 10000)
    (hten : LateInCentury start passed)
    (h : ∀ i < 7, CmosHolds century (cmos i) (clockAt start passed i)) :
    (unixTime (clockAt start passed 0) ≤ (getUnixTimestamp century cmos).toNat ∧
        (getUnixTimestamp century cmos).toNat ≤ unixTime (clockAt start passed 6)) ↔
      0 ≤ unixTime (clockAt start passed 1) + carried (clockAt start passed) ∧
        carried (clockAt start passed) ≤
          passed 1 + passed 2 + passed 3 + passed 4 + passed 5 := by
  have hfirst : (clockAt start passed 0).seconds ≤ (clockAt start passed 1).seconds :=
    (before_clockAt start passed 0).seconds
  have hlast := seconds_last start passed
  have hend := seconds_lt _ (hten.year_lt hyear (Nat.le_refl 6))
  rw [toNat_getUnixTimestamp hc hyear hten h]
  simp only [unixTime, unixEpoch_eq]
  -- A time before 1970 is read as one that is 2 ^ 64 seconds ahead.
  split_ifs with hneg
  · omega
  · omega

theorem carried_le_iff_of_short (start : DateTime) (passed : Nat → Nat)
    (hshort : passed 1 + passed 2 + passed 3 + passed 4 + passed 5 < 60) :
    carried (clockAt start passed) ≤
        passed 1 + passed 2 + passed 3 + passed 4 + passed 5 ↔
      (clockAt start passed 2).minuteNumber = (clockAt start passed 1).minuteNumber ∧
        (clockAt start passed 3).hourNumber = (clockAt start passed 2).hourNumber ∧
        (clockAt start passed 4).dayNumber = (clockAt start passed 3).dayNumber ∧
        monthStart (clockAt start passed 5).year (clockAt start passed 5).month =
          monthStart (clockAt start passed 4).year (clockAt start passed 4).month ∧
        monthStart (clockAt start passed 6).year (clockAt start passed 5).month =
          monthStart (clockAt start passed 5).year (clockAt start passed 5).month := by
  have hminute := (before_clockAt start passed 1).minuteNumber
  have hhour := (before_clockAt start passed 2).hourNumber
  have hday := (before_clockAt start passed 3).dayNumber
  have hmonth := (before_clockAt start passed 4).monthStart
  have hyear := monthStart_le_of_year_le (clockAt start passed 5).month_pos
    (clockAt start passed 5).month_le (before_clockAt start passed 5).year
  simp only [Nat.reduceAdd] at hminute hhour hday hmonth hyear
  rw [carried]
  omega

/-- The registers of a clock that has its century at `century`. -/
def registers (century : BitVec 8) (t : DateTime) (offset : BitVec 8) : BitVec 8 :=
  if offset = REGISTER_SECONDS then bcd t.second
  else if offset = REGISTER_MINUTES then bcd t.minute
  else if offset = REGISTER_HOURS then bcd t.hour
  else if offset = REGISTER_DAY_OF_MONTH then bcd t.day
  else if offset = REGISTER_MONTH then bcd t.month
  else if offset = REGISTER_YEAR then bcd (t.year % 100)
  else if offset = selCmosReg century then bcd (t.year / 100)
  else 0

theorem registers_hold (t : DateTime) : CmosHolds 0x32 (registers 0x32 t) t :=
  ⟨rfl, rfl, rfl, rfl, rfl, rfl, rfl⟩

def beforeEleven : DateTime :=
  ⟨⟨2025, 6, 15, by decide, by decide, by decide, by decide⟩, 10, 59, 59, by decide, by decide,
    by decide⟩

/-- The second passes between the reads of the seconds and the minutes. -/
def oneSecond (i : Nat) : Nat := if i = 1 then 1 else 0

theorem beforeEleven_late : LateInCentury beforeEleven oneSecond := by
  unfold LateInCentury
  decide +kernel

/-- The second passes when all but the year is read. -/
def lateSecond (i : Nat) : Nat := if i = 5 then 1 else 0

theorem lateSecond_late : LateInCentury beforeEleven lateSecond := by
  unfold LateInCentury
  decide +kernel

/-- The hour begins during the call, and nothing is carried. -/
theorem timestamp_untorn_iff_beforeEleven :
    unixTime (clockAt beforeEleven lateSecond 0) + 1 =
        unixTime (clockAt beforeEleven lateSecond 6) ∧
      unixTime (clockAt beforeEleven lateSecond 0) ≤
        (getUnixTimestamp 0x32 fun i =>
          registers 0x32 (clockAt beforeEleven lateSecond i)).toNat ∧
      (getUnixTimestamp 0x32 fun i =>
          registers 0x32 (clockAt beforeEleven lateSecond i)).toNat ≤
        unixTime (clockAt beforeEleven lateSecond 6) := by
  have hiff := timestamp_untorn_iff beforeEleven lateSecond 0x32
    (fun i => registers 0x32 (clockAt beforeEleven lateSecond i)) (by decide) (by decide)
    lateSecond_late fun _ _ => registers_hold _
  exact ⟨by decide +kernel, hiff.2 (by decide +kernel)⟩

/-- The minute and the hour are new, and the seconds are old: the reading is 59 seconds ahead. -/
theorem beforeEleven_torn :
    LateInCentury beforeEleven oneSecond ∧
      (∀ i < 7, CmosHolds 0x32 (registers 0x32 (clockAt beforeEleven oneSecond i))
        (clockAt beforeEleven oneSecond i)) ∧
      ¬(unixTime (clockAt beforeEleven oneSecond 0) ≤
          (getUnixTimestamp 0x32 fun i => registers 0x32 (clockAt beforeEleven oneSecond i)).toNat ∧
        (getUnixTimestamp 0x32 fun i => registers 0x32 (clockAt beforeEleven oneSecond i)).toNat ≤
          unixTime (clockAt beforeEleven oneSecond 6)) :=
  ⟨beforeEleven_late, fun _ _ => registers_hold _, by decide +kernel⟩

end AdaOS
