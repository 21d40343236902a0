import AdaOS.RtcDecode
import AdaOS.CivilDate

namespace AdaOS
set_option autoImplicit true
open Calendar

theorem toNat_mul_add {x : BitVec 32} (a b : Nat) (h : a * x.toNat + b < 2 ^ 32) :
    (.ofNat 32 a * x + .ofNat 32 b : BitVec 32).toNat = a * x.toNat + b := by
  rw [BitVec.toNat_add, BitVec.toNat_mul, BitVec.toNat_ofNat, BitVec.toNat_ofNat,
    Nat.mod_mul_mod, ← Nat.add_mod, Nat.mod_eq_of_lt h]

theorem toNat_yearOfEra {doe : BitVec 32} (h : doe.toNat < 146097) :
    ((doe - doe / 1460 + doe / 36524 - doe / 146096) / 365).toNat = yearOfEra doe.toNat := by
  have h₁ : (doe - doe / 1460).toNat = doe.toNat - doe.toNat / 1460 :=
    BitVec.toNat_sub_of_le (BitVec.le_def.2 (Nat.div_le_self _ _))
  have h₂ : (doe - doe / 1460 + doe / 36524).toNat =
      doe.toNat - doe.toNat / 1460 + doe.toNat / 36524 := by
    rw [BitVec.toNat_add_of_lt, h₁]
    · rfl
    · rw [h₁]
      change _ + doe.toNat / 36524 < 2 ^ 32
      omega
  have h₃ : (doe - doe / 1460 + doe / 36524 - doe / 146096).toNat =
      doe.toNat - doe.toNat / 1460 + doe.toNat / 36524 - doe.toNat / 146096 := by
    rw [BitVec.toNat_sub_of_le, h₂]
    · rfl
    · rw [BitVec.le_def, h₂]
      change doe.toNat / 146096 ≤ _
      omega
  exact congrArg (· / 365) h₃

theorem toNat_dayOfMarchYear {doe yoe : BitVec 32} (hy : yoe.toNat < 400)
    (hle : marchDays yoe.toNat ≤ doe.toNat) :
    (doe - (365 * yoe + yoe / 4 - yoe / 100)).toNat = doe.toNat - marchDays yoe.toNat := by
  unfold marchDays at *
  have h₁ : (365 * yoe).toNat = 365 * yoe.toNat := BitVec.toNat_mul_of_lt (by
    change 365 * yoe.toNat < 2 ^ 32
    omega)
  have h₂ : (365 * yoe + yoe / 4).toNat = 365 * yoe.toNat + yoe.toNat / 4 := by
    rw [BitVec.toNat_add_of_lt, h₁]
    · rfl
    · rw [h₁]
      change _ + yoe.toNat / 4 < 2 ^ 32
      omega
  have h₃ : (365 * yoe + yoe / 4 - yoe / 100).toNat =
      365 * yoe.toNat + yoe.toNat / 4 - yoe.toNat / 100 := by
    rw [BitVec.toNat_sub_of_le, h₂]
    · rfl
    · rw [BitVec.le_def, h₂]
      change yoe.toNat / 100 ≤ _
      omega
  rw [BitVec.toNat_sub_of_le, h₃]
  · omega
  · rw [BitVec.le_def, h₃]
    omega

theorem toNat_marchMonth {doy : BitVec 32} (h : doy.toNat < 366) :
    ((5 * doy + 2) / 153).toNat = marchMonth doy.toNat :=
  congrArg (· / 153) (toNat_mul_add (x := doy) 5 2 (by omega))

theorem toNat_civilDay {doy mp : BitVec 32} (h : doy.toNat < 366)
    (hm : mp.toNat = marchMonth doy.toNat) :
    (doy - (153 * mp + 2) / 5 + 1).toNat = doy.toNat - daysBeforeMarchMonth mp.toNat + 1 := by
  have hmp := marchMonth_lt h
  have hfrom := (marchMonth_spec doy.toNat).1
  rw [← hm] at hmp hfrom
  have h₁ : ((153 * mp + 2) / 5).toNat = daysBeforeMarchMonth mp.toNat :=
    congrArg (· / 5) (toNat_mul_add (x := mp) 153 2 (by omega))
  have h₂ : (doy - (153 * mp + 2) / 5).toNat = doy.toNat - daysBeforeMarchMonth mp.toNat := by
    rw [BitVec.toNat_sub_of_le, h₁]
    rw [BitVec.le_def, h₁]
    exact hfrom
  rw [BitVec.toNat_add_of_lt, h₂]
  · rfl
  · rw [h₂]
    change _ + 1 < 2 ^ 32
    omega

theorem toNat_januaryMonth {mp : BitVec 32} (h : mp.toNat < 12) :
    (mp + if mp < 10 then 3 else -9).toNat = januaryMonth mp.toNat := by
  have hlt : mp < 10 ↔ mp.toNat < 10 := Iff.rfl
  simp only [hlt, januaryMonth]
  split_ifs with hm
  · have h3 : (3 : BitVec 32).toNat = 3 := rfl
    rw [BitVec.toNat_add, h3]
    omega
  · have h9 : (-9 : BitVec 32).toNat = 2 ^ 32 - 9 := by decide
    rw [BitVec.toNat_add, h9]
    omega

theorem toNat_januaryYear {y mon : BitVec 32} (hy : y.toNat + 1 < 2 ^ 32)
    (hm : mon.toNat = januaryMonth mp) :
    (y + if mon ≤ 2 then 1 else 0).toNat = januaryYear y.toNat mp := by
  have hle : mon ≤ 2 ↔ mon.toNat ≤ 2 := Iff.rfl
  simp only [hle, hm, januaryYear]
  split_ifs
  · exact BitVec.toNat_add_of_lt hy
  · exact congrArg BitVec.toNat (BitVec.add_zero y)

theorem toNat_era {d : BitVec 64} (h : d.toNat < 2 ^ 39) :
    (d / 146097).toNat = d.toNat / 146097 ∧
      ((d - d / 146097 * 146097).setWidth 32).toNat = d.toNat % 146097 := by
  have hera : (d / 146097).toNat = d.toNat / 146097 := rfl
  have hmul : (d / 146097 * 146097).toNat = d.toNat / 146097 * 146097 :=
    BitVec.toNat_mul_of_lt (by
      change d.toNat / 146097 * 146097 < 2 ^ 64
      omega)
  refine ⟨hera, ?_⟩
  rw [BitVec.toNat_setWidth, BitVec.toNat_sub_of_le, hmul]
  · omega
  · rw [BitVec.le_def, hmul]
    omega

theorem toNat_marchYear {era : BitVec 64} {yoe : BitVec 32} (hera : era.toNat < 2 ^ 22)
    (hyoe : yoe.toNat < 400) :
    ((yoe.setWidth 64 + era * 400).setWidth 32).toNat = 400 * era.toNat + yoe.toNat := by
  have hmul : (era * 400).toNat = era.toNat * 400 := BitVec.toNat_mul_of_lt (by
    change era.toNat * 400 < 2 ^ 64
    omega)
  rw [BitVec.toNat_setWidth, BitVec.toNat_add, BitVec.toNat_setWidth, hmul]
  omega

theorem civilFromDays_eq (days : BitVec 64) (h : days.toNat < 2 ^ 38) :
    (civilFromDays days).1.toNat = civilYear (days.toNat + 719468) ∧
      (civilFromDays days).2.1.toNat = civilMonth (days.toNat + 719468) ∧
      (civilFromDays days).2.2.toNat = civilDay (days.toNat + 719468) := by
  have hdays : (days + 719468).toNat = days.toNat + 719468 := BitVec.toNat_add_of_lt (by
    change days.toNat + 719468 < 2 ^ 64
    omega)
  have hpos : days + 719468 ≥ 0 := Nat.zero_le _
  simp only [civilFromDays, if_pos hpos]
  rw [← hdays]
  have hlt : (days + 719468).toNat < 2 ^ 39 := by omega
  generalize days + 719468 = d at hlt ⊢
  obtain ⟨hera, hdoe⟩ := toNat_era hlt
  have hmod : d.toNat % 146097 < 146097 := Nat.mod_lt _ (by decide)
  generalize (d - d / 146097 * 146097).setWidth 32 = doe at hdoe ⊢
  have hyoe := toNat_yearOfEra (show doe.toNat < 146097 by rw [hdoe]; exact hmod)
  rw [hdoe] at hyoe
  generalize (doe - doe / 1460 + doe / 36524 - doe / 146096) / 365 = yoe at hyoe ⊢
  have hyoelt : yoe.toNat < 400 := by
    rw [hyoe]
    exact yearOfEra_lt hmod
  have hy := toNat_marchYear (show (d / 146097).toNat < 2 ^ 22 by rw [hera]; omega) hyoelt
  rw [hera, hyoe, ← marchYear] at hy
  generalize (yoe.setWidth 64 + d / 146097 * 400).setWidth 32 = y at hy ⊢
  have hdoy : (doe - (365 * yoe + yoe / 4 - yoe / 100)).toNat = dayOfMarchYear d.toNat := by
    have hle := (yearOfEra_spec hmod).1
    rw [← hyoe, ← hdoe] at hle
    rw [toNat_dayOfMarchYear hyoelt hle, dayOfMarchYear, marchYear, marchDays_era, hdoe, hyoe]
    omega
  have hdoylt := dayOfMarchYear_lt d.toNat
  generalize doe - (365 * yoe + yoe / 4 - yoe / 100) = doy at hdoy ⊢
  rw [← hdoy] at hdoylt
  have hmp := toNat_marchMonth hdoylt
  have hmplt := marchMonth_lt hdoylt
  generalize (5 * doy + 2) / 153 = mp at hmp ⊢
  rw [← hmp] at hmplt
  have hmon := toNat_januaryMonth hmplt
  refine ⟨?_, ?_, ?_⟩
  · rw [toNat_januaryYear ?_ hmon, hy, hmp, hdoy, civilYear]
    rw [hy, marchYear]
    omega
  · rw [hmon, hmp, hdoy, civilMonth]
  · rw [toNat_civilDay hdoylt hmp, hmp, hdoy, civilDay]

/-- The date and time `secs` seconds after the start of 1970. -/
def dateTimeAt (secs : Nat) : DateTime where
  toDate := civilDate (secs / 86400 + 719468)
  hour := secs / 3600 % 24
  minute := secs / 60 % 60
  second := secs % 60
  hour_lt := Nat.mod_lt _ (by decide)
  minute_lt := Nat.mod_lt _ (by decide)
  second_lt := Nat.mod_lt _ (by decide)

theorem dateTimeAt_seconds (secs : Nat) : (dateTimeAt secs).seconds = unixEpoch + secs := by
  have hday := civilDate_dayNumber (secs / 86400 + 719468)
  rw [unixEpoch_eq]
  simp only [DateTime.seconds, DateTime.minuteNumber, DateTime.hourNumber, dateTimeAt, hday]
  omega

namespace IsoFields

/-- A date and time of the Gregorian calendar. -/
structure Valid (f : IsoFields) : Prop where
  month_pos : 1 ≤ f.mon.toNat
  month_le : f.mon.toNat ≤ 12
  day_pos : 1 ≤ f.day.toNat
  day_le : f.day.toNat ≤ monthLength f.y.toNat f.mon.toNat
  hour_lt : f.hr.toNat < 24
  minute_lt : f.min.toNat < 60
  second_lt : f.sec.toNat < 60
  ms_lt : f.ms.toNat < 1000

def sinceEpoch (f : IsoFields) : Int :=
  ((secondsAt f.y.toNat f.mon.toNat f.day.toNat f.hr.toNat f.min.toNat f.sec.toNat : Int) -
    unixEpoch) * 1000 + f.ms.toNat

/-- The fields in the order they are printed. -/
def toList (f : IsoFields) : List Nat :=
  [f.y.toNat, f.mon.toNat, f.day.toNat, f.hr.toNat, f.min.toNat, f.sec.toNat, f.ms.toNat]

end IsoFields

/-- The fields printed are those of the date and time the milliseconds come to. -/
theorem isoFields_toList (t : BitVec 64) : (isoFields t).toList =
    (dateTimeAt (t.toNat / 1000)).fields ++ [t.toNat % 1000] := by
  have hdays : (t / 1000 / 60 / 60 / 24).toNat = t.toNat / 1000 / 86400 := by
    change t.toNat / 1000 / 60 / 60 / 24 = _
    omega
  obtain ⟨hy, hm, hd⟩ := civilFromDays_eq (t / 1000 / 60 / 60 / 24) (by omega)
  rw [hdays] at hy hm hd
  have hhr : ((t / 1000 / 60 / 60 % 24).setWidth 32).toNat = t.toNat / 1000 / 3600 % 24 := by
    rw [BitVec.toNat_setWidth]
    change t.toNat / 1000 / 60 / 60 % 24 % 2 ^ 32 = _
    omega
  have hmin : ((t / 1000 / 60 % 60).setWidth 32).toNat = t.toNat / 1000 / 60 % 60 := by
    rw [BitVec.toNat_setWidth]
    change t.toNat / 1000 / 60 % 60 % 2 ^ 32 = _
    omega
  have hsec : ((t / 1000 % 60).setWidth 32).toNat = t.toNat / 1000 % 60 := by
    rw [BitVec.toNat_setWidth]
    change t.toNat / 1000 % 60 % 2 ^ 32 = _
    omega
  have hms : ((t % 1000).setWidth 32).toNat = t.toNat % 1000 := by
    rw [BitVec.toNat_setWidth]
    change t.toNat % 1000 % 2 ^ 32 = _
    omega
  simp only [IsoFields.toList, isoFields, hy, hm, hd, hhr, hmin, hsec, hms]
  rfl

theorem append_singleton_lt {l l' : List Nat} (h : l.length = l'.length) :
    l ++ [a] < l' ++ [b] ↔ l < l' ∨ l = l' ∧ a < b := by
  induction l generalizing l' with
  | nil =>
    cases l' with
    | nil => simp [List.cons_lt_cons_iff]
    | cons c l' => cases h
  | cons c l ih =>
    cases l' with
    | nil => cases h
    | cons d l' =>
      have ih := ih (Nat.succ.inj h)
      simp only [List.cons_append, List.cons_lt_cons_iff, ih, List.cons.injEq]
      tauto

/-- The fields are those of the one date and time with that many milliseconds from 1970. -/
theorem isoFields_exact (t : BitVec 64) :
    (isoFields t).Valid ∧ (isoFields t).sinceEpoch = t.toNat := by
  have h := isoFields_toList t
  simp only [IsoFields.toList, DateTime.fields, List.cons_append, List.nil_append,
    List.cons.injEq, and_true] at h
  obtain ⟨hy, hm, hd, hhr, hmin, hsec, hms⟩ := h
  have hsecs : secondsAt (isoFields t).y.toNat (isoFields t).mon.toNat (isoFields t).day.toNat
      (isoFields t).hr.toNat (isoFields t).min.toNat (isoFields t).sec.toNat =
      unixEpoch + t.toNat / 1000 := by
    rw [hy, hm, hd, hhr, hmin, hsec]
    exact dateTimeAt_seconds _
  constructor
  · constructor
    · exact hm ▸ (dateTimeAt _).month_pos
    · exact hm ▸ (dateTimeAt _).month_le
    · exact hd ▸ (dateTimeAt _).day_pos
    · rw [hy, hm, hd]
      exact (dateTimeAt _).day_le
    · exact hhr ▸ (dateTimeAt _).hour_lt
    · exact hmin ▸ (dateTimeAt _).minute_lt
    · exact hsec ▸ (dateTimeAt _).second_lt
    · exact hms ▸ Nat.mod_lt _ (by decide)
  · rw [IsoFields.sinceEpoch, hsecs, hms]
    omega

theorem isoFields_lt_iff (t u : BitVec 64) :
    (isoFields t).toList < (isoFields u).toList ↔ t < u := by
  have hlen (d e : DateTime) : d.fields.length = e.fields.length := rfl
  rw [isoFields_toList, isoFields_toList, append_singleton_lt (hlen _ _), DateTime.fields_lt_iff,
    DateTime.fields_injective.eq_iff, ← DateTime.seconds_injective.eq_iff, dateTimeAt_seconds,
    dateTimeAt_seconds, BitVec.lt_def]
  omega

theorem isoFields_injective : Function.Injective isoFields := by
  intro t u h
  have ht := (isoFields_exact t).2
  rw [h, (isoFields_exact u).2] at ht
  exact BitVec.eq_of_toNat_eq (Int.ofNat.inj ht).symm

/-- `ms_to_iso8601` prints a valid date and time for every count of milliseconds, the one that is
that many milliseconds after the start of 1970, and prints later counts as later times. -/
theorem msToIso8601_exact :
    (∀ t, (isoFields t).Valid ∧ (isoFields t).sinceEpoch = t.toNat) ∧
      Function.Injective isoFields ∧
      ∀ t u, t < u ↔ (isoFields t).toList < (isoFields u).toList :=
  ⟨isoFields_exact, isoFields_injective, fun t u => (isoFields_lt_iff t u).symm⟩

theorem length_ntoaLong_le (fuel : Nat) (h : v < base ^ (w + 1)) :
    (ntoaLong base fuel v).length ≤ w + 1 := by
  induction w generalizing fuel v with
  | zero =>
    cases fuel with
    | zero => exact Nat.zero_le _
    | succ fuel =>
      rw [Nat.zero_add, pow_one] at h
      rw [ntoaLong, Nat.div_eq_of_lt h]
      exact Nat.le_refl 1
  | succ w ih =>
    cases fuel with
    | zero => exact Nat.zero_le _
    | succ fuel =>
      have hdiv : v / base < base ^ (w + 1) := Nat.div_lt_of_lt_mul (by rwa [pow_succ'] at h)
      rw [ntoaLong, List.length_cons]
      split_ifs
      · exact Nat.succ_le_succ (Nat.zero_le _)
      · exact Nat.succ_le_succ (ih fuel hdiv)

theorem length_formatD (w : Nat) (h : v < 10 ^ (w + 1)) : (formatD (w + 1) v).length = w + 1 := by
  have hle := length_ntoaLong_le 32 h
  rw [formatD, List.length_reverse, List.length_append, List.length_replicate,
    Nat.add_sub_of_le hle]

theorem length_isoText {f : IsoFields} (h : f.y.toNat < 10000) (hv : f.Valid) :
    (isoText f).length = 24 := by
  have hmon := hv.month_le
  have hday := Nat.le_trans hv.day_le (monthLength_le _ _)
  have hhr := hv.hour_lt
  have hmin := hv.minute_lt
  have hsec := hv.second_lt
  have h₁ : (formatD 4 f.y.toNat).length = 4 := length_formatD 3 h
  have h₂ : (formatD 2 f.mon.toNat).length = 2 := length_formatD 1 (by omega)
  have h₃ : (formatD 2 f.day.toNat).length = 2 := length_formatD 1 (by omega)
  have h₄ : (formatD 2 f.hr.toNat).length = 2 := length_formatD 1 (by omega)
  have h₅ : (formatD 2 f.min.toNat).length = 2 := length_formatD 1 (by omega)
  have h₆ : (formatD 2 f.sec.toNat).length = 2 := length_formatD 1 (by omega)
  have h₇ : (formatD 3 f.ms.toNat).length = 3 := length_formatD 2 hv.ms_lt
  simp only [isoText, List.length_append, List.length_cons, List.length_nil, h₁, h₂, h₃, h₄, h₅,
    h₆, h₇]

theorem msToIso8601_whole (t : BitVec 64) (h : (isoFields t).y.toNat < 10000) :
    msToIso8601 t 25 = isoText (isoFields t) ++ [0] := by
  have hlen := length_isoText h (isoFields_exact t).1
  rw [msToIso8601]
  generalize isoText (isoFields t) = text at hlen ⊢
  have hall : (text ++ [0]).length = 25 := by
    rw [List.length_append, hlen, List.length_singleton]
  rw [List.take_of_length_le (Nat.le_of_eq hlen), List.take_of_length_le (Nat.le_of_eq hall)]

theorem unixEpoch_le_seconds {t : DateTime} (h : 1970 ≤ t.year) : unixEpoch ≤ t.seconds := by
  have hstart : monthStart 1970 1 ≤ monthStart t.year t.month :=
    Nat.le_trans (monthStart_le_of_year_le Nat.one_pos (by decide) h)
      (monthStart_mono _ Nat.one_pos t.month_pos)
  rw [unixEpoch, secondsAt]
  generalize monthStart 1970 1 = m at hstart ⊢
  simp only [DateTime.seconds, DateTime.minuteNumber, DateTime.hourNumber, Date.dayNumber]
  omega

theorem seconds_lt_of_year_le {t : DateTime} (h : t.year ≤ 65535) : t.seconds < 2 ^ 41 := by
  have hyear := daysBeforeYear_le t.year
  have hmonth := daysBeforeMonth_le t.year t.month_pos t.month_le
  have hday := t.day_le_thirtyOne
  have hh := t.hour_lt
  have hm := t.minute_lt
  have hs := t.second_lt
  simp only [DateTime.seconds, DateTime.minuteNumber, DateTime.hourNumber, Date.dayNumber,
    monthStart]
  omega

/-- `get_unix_epoch` of the fields of a date and time. -/
def unixEpochOf (t : DateTime) : BitVec 64 :=
  getUnixEpoch (.ofNat 8 t.second) (.ofNat 8 t.minute) (.ofNat 8 t.hour) (.ofNat 8 t.day)
    (.ofNat 8 t.month) (.ofNat 16 t.year)

theorem toNat_unixEpochOf {t : DateTime} (h : 1970 ≤ t.year) (hle : t.year ≤ 65535) :
    (unixEpochOf t).toNat = t.seconds - unixEpoch := by
  have hday := t.day_le_thirtyOne
  have hh := t.hour_lt
  have hm := t.minute_lt
  have hs := t.second_lt
  have hfrom := unixEpoch_le_seconds h
  have hto := seconds_lt_of_year_le hle
  have hsecs : secondsAt t.year t.month t.day t.hour t.minute t.second = t.seconds := rfl
  have hsub : (t.seconds : Int) - unixEpoch = (t.seconds - unixEpoch : Nat) := by omega
  rw [unixEpochOf, getUnixEpoch_eq t.month_pos t.month_le t.day_pos (by omega) (by omega)
    (by omega) (by omega) (by omega), hsecs, hsub, BitVec.ofInt_natCast, BitVec.toNat_ofNat]
  omega

/-- The fields that `get_unix_epoch` was given come back from `ms_to_iso8601`. -/
theorem isoFields_unixEpochOf (t : DateTime) (h : 1970 ≤ t.year) (hle : t.year ≤ 65535) :
    (isoFields (unixEpochOf t * 1000)).toList =
      [t.year, t.month, t.day, t.hour, t.minute, t.second, 0] := by
  have hepoch := toNat_unixEpochOf h hle
  have hfrom := unixEpoch_le_seconds h
  have hto := seconds_lt_of_year_le hle
  have hms : (unixEpochOf t * 1000).toNat = (t.seconds - unixEpoch) * 1000 := by
    rw [BitVec.toNat_mul, hepoch]
    change (t.seconds - unixEpoch) * 1000 % 2 ^ 64 = _
    omega
  have hback : dateTimeAt (t.seconds - unixEpoch) = t := by
    apply DateTime.seconds_injective
    rw [dateTimeAt_seconds]
    omega
  rw [isoFields_toList, hms, Nat.mul_div_cancel _ (by decide), Nat.mul_mod_left, hback]
  rfl

/-- The last second of the last year that 16 bits hold. -/
theorem isoFields_unixEpochOf_lastSecond : ∃ t : DateTime, t.fields = [65535, 12, 31, 23, 59, 59] ∧
    (isoFields (unixEpochOf t * 1000)).toList = [65535, 12, 31, 23, 59, 59, 0] :=
  ⟨⟨⟨65535, 12, 31, by decide, by decide, by decide, by decide⟩, 23, 59, 59, by decide, by decide,
    by decide⟩, rfl, isoFields_unixEpochOf _ (by decide) (by decide)⟩

end AdaOS
