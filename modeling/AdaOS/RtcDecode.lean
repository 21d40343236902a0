import AdaOS.Rtc
import Mathlib.Tactic.IntervalCases
import Mathlib.Tactic.Ring

namespace AdaOS
set_option autoImplicit true
open Calendar

theorem jdnYear_eq (year : Nat) :
    1461 * (year + 4799) / 4 =
      3 * ((year + 4899) / 100) / 4 + daysBeforeYear year + 1752798 := by
  have hy := daysBeforeYear_eq year
  have hquad : 1461 * (year + 4799) / 4 = 365 * year + (year + 3) / 4 + 1752834 := by omega
  have hcentury : (year + 4899) / 100 = (year + 99) / 100 + 48 := by omega
  have hfour : (year + 399) / 400 = ((year + 99) / 100 + 3) / 4 := by omega
  omega

theorem jdnMonth_eq (hm : 2 < month) (hle : month ≤ 12) (year : Nat) :
    daysBeforeYear (year + 1) + 367 * (month - 2) / 12 = monthStart year month + 336 := by
  rw [daysBeforeYear, monthStart, yearLength]
  by_cases hl : IsLeap year
  all_goals
    interval_cases month
    all_goals simp +arith only [daysBeforeMonth, monthLength, hl, if_true, if_false]

theorem getJdn_eq_of {month year day n p : Nat} {a : Int} (ha : ((month : Int) - 14).tdiv 12 = a)
    (hn : (year : Int) + 1 + a = n) (hp : (month : Int) - 2 - 12 * a = p) :
    getJdn day month year = daysBeforeYear n + (367 * p / 12 : Nat) + day + 1720723 := by
  have h4800 : (year : Int) + 4800 + a = (n + 4799 : Nat) := by omega
  have h4900 : (year : Int) + 4900 + a = (n + 4899 : Nat) := by omega
  have hy := jdnYear_eq n
  have hquad : (1461 * ((n + 4799 : Nat) : Int)).tdiv 4 = (1461 * (n + 4799) / 4 : Nat) := rfl
  have hmonth : (367 * (p : Int)).tdiv 12 = (367 * p / 12 : Nat) := rfl
  have hcentury : (3 * ((n + 4899 : Nat) : Int).tdiv 100).tdiv 4 =
      (3 * ((n + 4899) / 100) / 4 : Nat) := rfl
  rw [getJdn, ha, hp, h4800, h4900, hquad, hmonth, hcentury, hy]
  omega

theorem getJdn_eq {month : Nat} (hpos : 0 < month) (hle : month ≤ 12) (day year : Nat) :
    getJdn day month year = monthStart year month + day + 1721059 := by
  have ha : ∀ m < 13, 0 < m → ((m : Nat) - 14 : Int).tdiv 12 = if m ≤ 2 then -1 else 0 := by
    decide
  have ha := ha month (by omega) hpos
  by_cases hm : month ≤ 2
  · rw [if_pos hm] at ha
    rw [getJdn_eq_of (n := year) (p := month + 10) ha (by omega) (by omega)]
    obtain rfl | rfl : month = 1 ∨ month = 2 := by omega
    · rw [monthStart, daysBeforeMonth]
      omega
    · rw [monthStart, daysBeforeMonth, daysBeforeMonth, monthLength]
      · omega
      all_goals decide
  · rw [if_neg hm] at ha
    have hmonth := jdnMonth_eq (Nat.lt_of_not_le hm) hle year
    rw [getJdn_eq_of (n := year + 1) (p := month - 2) ha (by omega) (by omega)]
    omega

/-- The seconds from the start of year 0 to the start of 1970. -/
def unixEpoch : Nat := secondsAt 1970 1 1 0 0 0

theorem unixEpoch_eq : unixEpoch = 62167219200 := by decide +kernel

theorem ofInt_sub (m n : Int) : BitVec.ofInt w (m - n) = BitVec.ofInt w m - BitVec.ofInt w n := by
  rw [Int.sub_eq_add_neg, BitVec.ofInt_add, BitVec.ofInt_neg, BitVec.sub_eq_add_neg]

theorem getUnixEpoch_eq {month : Nat} (hpos : 0 < month) (hle : month ≤ 12) (hday : 0 < day)
    (hd : day < 256) (hh : hour < 256) (hm : minute < 256) (hs : second < 256)
    (hy : year < 2 ^ 16) :
    getUnixEpoch (.ofNat 8 second) (.ofNat 8 minute) (.ofNat 8 hour) (.ofNat 8 day)
        (.ofNat 8 month) (.ofNat 16 year) =
      .ofInt 64 (secondsAt year month day hour minute second - unixEpoch) := by
  have h1970 : getJdn 1 1 1970 = 2440588 := by decide
  have hjdn := getJdn_eq hpos hle day year
  have hday : (60 * 60 * 24 : BitVec 64) = .ofInt 64 86400 := by decide
  have hsplit : (secondsAt year month day hour minute second - unixEpoch : Int) =
      (monthStart year month + day + 1721059 - 2440588) * 86400 + (hour * 3600 : Nat) +
        (minute * 60 : Nat) + (second : Nat) := by
    rw [unixEpoch_eq, secondsAt]
    omega
  have hmonth : month < 2 ^ 8 := by omega
  simp only [getUnixEpoch, BitVec.toNat_ofNat, Nat.mod_eq_of_lt hd, Nat.mod_eq_of_lt hh,
    Nat.mod_eq_of_lt hm, Nat.mod_eq_of_lt hs, Nat.mod_eq_of_lt hy, Nat.mod_eq_of_lt hmonth, hjdn,
    h1970, hday]
  rw [hsplit]
  simp only [BitVec.ofInt_add, BitVec.ofInt_mul, ofInt_sub, BitVec.ofInt_natCast]

def bcd (n : Nat) : BitVec 8 := .ofNat 8 (n / 10 * 16 + n % 10)

theorem atoi_from (b : List (BitVec 8)) (res : Int) :
    b.foldl (fun res ch => res * 10 + (ch.toInt - 48)) res = res * 10 ^ b.length + atoi b := by
  induction b generalizing res with
  | nil => rw [List.foldl_nil, List.length_nil, pow_zero, mul_one, atoi, List.foldl_nil, add_zero]
  | cons ch b ih =>
    have hcons : atoi (ch :: b) = (0 * 10 + (ch.toInt - 48)) * 10 ^ b.length + atoi b := ih _
    rw [List.foldl_cons, ih, hcons, List.length_cons]
    ring

theorem atoi_append (a b : List (BitVec 8)) :
    atoi (a ++ b) = atoi a * 10 ^ b.length + atoi b := by
  rw [atoi, List.foldl_append]
  exact atoi_from b _

theorem atoi_formatX_bcd : ∀ n < 100, atoi (formatX (bcd n).toNat) = n := by decide

theorem length_formatX_bcd : ∀ n < 100, 10 ≤ n → (formatX (bcd n).toNat).length = 2 := by decide

theorem ofInt_atoi_bcd (hn : n < 100) (w : Nat) :
    BitVec.ofInt w (atoi (formatX (bcd n).toNat)) = .ofNat w n := by
  rw [atoi_formatX_bcd n hn, BitVec.ofInt_natCast]

theorem length_formatX_bcd_of_lt : ∀ n < 10, (formatX (bcd n).toNat).length = 1 := by decide

/-- The year whose decimal text is that of the century and that of its year, one after the
other. -/
def yearAsRead (c y : Nat) : Nat := if y < 10 then 10 * c + y else 100 * c + y

theorem yearAsRead_lt (hc : c < 100) (hy : y < 100) : yearAsRead c y < 10000 := by
  unfold yearAsRead
  split_ifs <;> omega

theorem yearAsRead_of_le (hten : 10 ≤ year % 100) :
    yearAsRead (year / 100) (year % 100) = year := by
  rw [yearAsRead, if_neg (Nat.not_lt.2 hten)]
  omega

theorem ofInt_atoi_year (hc : c < 100) (hy : y < 100) (w : Nat) :
    BitVec.ofInt w (atoi (formatX (bcd c).toNat ++ formatX (bcd y).toNat)) =
      .ofNat w (yearAsRead c y) := by
  have hyear : atoi (formatX (bcd c).toNat ++ formatX (bcd y).toNat) = yearAsRead c y := by
    rw [atoi_append, atoi_formatX_bcd c hc, atoi_formatX_bcd y hy, yearAsRead]
    split_ifs with hshort
    · rw [length_formatX_bcd_of_lt y hshort]
      omega
    · rw [length_formatX_bcd y hy (Nat.le_of_not_lt hshort)]
      omega
  rw [hyear, BitVec.ofInt_natCast]

/-- The registers hold a date and time in BCD, the century in a register of its own. -/
structure CmosHolds (century : BitVec 8) (cmos : BitVec 8 → BitVec 8) (t : DateTime) : Prop where
  seconds : cmos REGISTER_SECONDS = bcd t.second
  minutes : cmos REGISTER_MINUTES = bcd t.minute
  hours : cmos REGISTER_HOURS = bcd t.hour
  dayOfMonth : cmos REGISTER_DAY_OF_MONTH = bcd t.day
  month : cmos REGISTER_MONTH = bcd t.month
  year : cmos REGISTER_YEAR = bcd (t.year % 100)
  century : cmos (selCmosReg century) = bcd (t.year / 100)

/-- The timestamp is put together from the fields as they are when each is read. -/
theorem getUnixTimestamp_eq {t : Nat → DateTime} (hc : century ≠ 0)
    (h : ∀ i < 7, CmosHolds century (cmos i) (t i)) (hyear : ∀ i < 7, (t i).year < 10000) :
    getUnixTimestamp century cmos =
      .ofInt 64 (secondsAt (yearAsRead ((t 0).year / 100) ((t 6).year % 100)) (t 5).month
        (t 4).day (t 3).hour (t 2).minute (t 1).second - unixEpoch) := by
  have hs := (t 1).second_lt
  have hm := (t 2).minute_lt
  have hh := (t 3).hour_lt
  have hd := (t 4).day_le_thirtyOne
  have hmon := (t 5).month_le
  have hy0 := hyear 0 (by decide)
  have hmod := Nat.mod_lt (t 6).year (show 0 < 100 by decide)
  have hdiv : (t 0).year / 100 < 100 := Nat.div_lt_of_lt_mul hy0
  have hread := yearAsRead_lt hdiv hmod
  have hsel : selCmosReg REGISTER_SECONDS = REGISTER_SECONDS ∧
      selCmosReg REGISTER_MINUTES = REGISTER_MINUTES ∧
      selCmosReg REGISTER_HOURS = REGISTER_HOURS ∧
      selCmosReg REGISTER_DAY_OF_MONTH = REGISTER_DAY_OF_MONTH ∧
      selCmosReg REGISTER_MONTH = REGISTER_MONTH ∧
      selCmosReg REGISTER_YEAR = REGISTER_YEAR := by decide
  obtain ⟨hsec, hmin, hhour, hday, hmonth, hyr⟩ := hsel
  simp only [getUnixTimestamp, readCmosReg, if_pos hc, hsec, hmin, hhour, hday, hmonth, hyr,
    Nat.reduceAdd, (h 0 (by decide)).century, (h 1 (by decide)).seconds,
    (h 2 (by decide)).minutes, (h 3 (by decide)).hours, (h 4 (by decide)).dayOfMonth,
    (h 5 (by decide)).month, (h 6 (by decide)).year]
  rw [ofInt_atoi_bcd (by omega), ofInt_atoi_bcd (by omega), ofInt_atoi_bcd (by omega),
    ofInt_atoi_bcd (by omega), ofInt_atoi_bcd (by omega), ofInt_atoi_year hdiv hmod]
  exact getUnixEpoch_eq (t 5).month_pos hmon (t 4).day_pos (by omega) (by omega) (by omega)
    (by omega) (by omega)

end AdaOS
