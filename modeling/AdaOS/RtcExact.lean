import AdaOS.RtcReads

namespace AdaOS
set_option autoImplicit true
open Calendar

theorem getUnixTimestamp_still {t : DateTime} (hc : century ≠ 0) (hyear : t.year < 10000)
    (h : CmosHolds century cmos t) :
    getUnixTimestamp century (fun _ => cmos) =
      .ofInt 64 (secondsAt (yearAsRead (t.year / 100) (t.year % 100)) t.month t.day t.hour t.minute
        t.second - unixEpoch) :=
  getUnixTimestamp_eq (t := fun _ => t) hc (fun _ _ => h) fun _ _ => hyear

theorem yearAsRead_early (hyear : year < 10000) (h : year % 100 < 10) :
    yearAsRead (year / 100) (year % 100) < 1000 := by
  rw [yearAsRead, if_pos h]
  omega

theorem secondsAt_lt_epoch (hy : year < 1000) (hpos : 0 < month) (hle : month ≤ 12)
    (hd : day ≤ 31) (hh : hour < 24) (hm : minute < 60) (hs : second < 60) :
    secondsAt year month day hour minute second < unixEpoch := by
  have hyear := daysBeforeYear_le year
  have hmonth := daysBeforeMonth_le year hpos hle
  rw [unixEpoch_eq, secondsAt, monthStart]
  omega

theorem secondsAt_eq_seconds (t : DateTime) :
    secondsAt t.year t.month t.day t.hour t.minute t.second = t.seconds := by
  rw [secondsAt, DateTime.seconds, DateTime.minuteNumber, DateTime.hourNumber, Date.dayNumber]

theorem seconds_epoch_le (t : DateTime) (h : 1970 ≤ t.year) : unixEpoch ≤ t.seconds := by
  have hepoch : monthStart 1970 1 = 719528 := by decide +kernel
  have hyear : monthStart 1970 1 ≤ monthStart t.year 1 :=
    monthStart_le_of_year_le Nat.one_pos (by decide) h
  have hmonth : monthStart t.year 1 ≤ monthStart t.year t.month :=
    monthStart_mono t.year Nat.one_pos t.month_pos
  rw [hepoch] at hyear
  rw [unixEpoch_eq, ← secondsAt_eq_seconds, secondsAt]
  omega

/-- The timestamp of a time since 1970 is the seconds from the epoch exactly when the year of the
century has two digits without a leading zero. -/
theorem timestamp_exact_iff (t : DateTime) (century : BitVec 8) (cmos : BitVec 8 → BitVec 8)
    (hc : century ≠ 0) (hyear : t.year < 10000) (h1970 : 1970 ≤ t.year)
    (h : CmosHolds century cmos t) :
    ((getUnixTimestamp century fun _ => cmos).toNat : Int) = unixTime t ↔
      10 ≤ t.year % 100 := by
  have hepoch := seconds_epoch_le t h1970
  rw [getUnixTimestamp_still hc hyear h]
  constructor
  · intro hexact
    -- The year as read is before 1000, so that the difference from the epoch wraps.
    by_contra hten
    have hearly := yearAsRead_early hyear (Nat.lt_of_not_le hten)
    have hbefore := secondsAt_lt_epoch hearly t.month_pos t.month_le t.day_le_thirtyOne t.hour_lt
      t.minute_lt t.second_lt
    have hlt := seconds_lt t hyear
    rw [toNat_ofInt_unixTime (Nat.lt_trans hbefore (by rw [unixEpoch_eq]; decide)),
      if_pos (by omega), unixTime, unixEpoch_eq] at hexact
    omega
  · intro hten
    have hlt := seconds_lt t hyear
    rw [yearAsRead_of_le hten, secondsAt_eq_seconds, toNat_ofInt_unixTime hlt, if_neg (by omega)]
    rfl

def newYear2005 : DateTime := .midnight (.firstDay 2005)

theorem timestamp_exact_iff_beforeEleven :
    ((getUnixTimestamp 0x32 fun _ => registers 0x32 beforeEleven).toNat : Int) =
        unixTime beforeEleven ↔ 10 ≤ beforeEleven.year % 100 :=
  timestamp_exact_iff _ _ _ (by decide) (by decide) (by decide) (registers_hold _)

/-- The year 2005 is read as 205. -/
theorem newYear2005_misread :
    ¬∀ (t : DateTime) (century : BitVec 8) (cmos : BitVec 8 → BitVec 8), century ≠ 0 →
      t.year < 10000 → 1970 ≤ t.year → CmosHolds century cmos t →
      ((getUnixTimestamp century fun _ => cmos).toNat : Int) = unixTime t := by
  intro hall
  have h := hall newYear2005 0x32 (registers 0x32 newYear2005) (by decide) (by decide)
    (by decide) (registers_hold _)
  revert h
  decide +kernel

end AdaOS
