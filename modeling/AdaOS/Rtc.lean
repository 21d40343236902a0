import AdaOS.Basic
import AdaOS.Calendar

namespace AdaOS
set_option autoImplicit true

def REGISTER_SECONDS : BitVec 8 := 0x00
def REGISTER_MINUTES : BitVec 8 := 0x02
def REGISTER_HOURS : BitVec 8 := 0x04
def REGISTER_DAY_OF_MONTH : BitVec 8 := 0x07
def REGISTER_MONTH : BitVec 8 := 0x08
def REGISTER_YEAR : BitVec 8 := 0x09

/-- The register that `sel_cmos_reg` selects. -/
def selCmosReg (offset : BitVec 8) : BitVec 8 := ~~~(1#8 <<< 7) &&& offset

/-- `read_cmos_reg`, where `cmos n` is what the registers hold when the `n`-th read comes. -/
def readCmosReg (cmos : Nat → BitVec 8 → BitVec 8) (n : Nat) (offset : BitVec 8) : BitVec 8 :=
  cmos n (selCmosReg offset)

/-- The digits that the loop of `_ntoa_long` puts in its buffer, the last one first. -/
def ntoaLong (base : Nat) : Nat → Nat → List (BitVec 8)
  | 0, _ => []
  | fuel + 1, value =>
    let digit := value % base
    .ofNat 8 (if digit < 10 then 48 + digit else 97 + digit - 10) ::
      if value / base = 0 then [] else ntoaLong base fuel (value / base)

/-- What `snprintf_` writes for `%x`. -/
def formatX (value : Nat) : List (BitVec 8) := (ntoaLong 16 32 value).reverse

def atoi (strg : List (BitVec 8)) : Int := strg.foldl (fun res ch => res * 10 + (ch.toInt - 48)) 0

/-- What `snprintf_` writes for `%0` with a width and `d`, when the value is not negative. -/
def formatD (width value : Nat) : List (BitVec 8) :=
  let digits := ntoaLong 10 32 value
  (digits ++ List.replicate (width - digits.length) 48).reverse

/-- The fields that `ms_to_iso8601` prints. -/
structure IsoFields where
  y : BitVec 32
  mon : BitVec 32
  day : BitVec 32
  hr : BitVec 32
  min : BitVec 32
  sec : BitVec 32
  ms : BitVec 32
  deriving DecidableEq

/-- The block of `ms_to_iso8601` that makes a year, a month and a day of the days since 1970. -/
def civilFromDays (days : BitVec 64) : BitVec 32 × BitVec 32 × BitVec 32 :=
  let days := days + 719468
  let era := (if days ≥ 0 then days else days - 146096) / 146097
  let doe := (days - era * 146097).setWidth 32
  let yoe := (doe - doe / 1460 + doe / 36524 - doe / 146096) / 365
  let y := (yoe.setWidth 64 + era * 400).setWidth 32
  let doy := doe - (365 * yoe + yoe / 4 - yoe / 100)
  let mp := (5 * doy + 2) / 153
  let day := doy - (153 * mp + 2) / 5 + 1
  let mon := mp + if mp < 10 then 3 else -9
  let y := y + if mon ≤ 2 then 1 else 0
  (y, mon, day)

def isoFields (msEpoch : BitVec 64) : IsoFields :=
  let secs := msEpoch / 1000
  let (y, mon, day) := civilFromDays (secs / 60 / 60 / 24)
  { y := y
    mon := mon
    day := day
    hr := (secs / 60 / 60 % 24).setWidth 32
    min := (secs / 60 % 60).setWidth 32
    sec := (secs % 60).setWidth 32
    ms := (msEpoch % 1000).setWidth 32 }

/-- The text of `"%04d-%02d-%02dT%02d:%02d:%02d.%03dZ"`. -/
def isoText (f : IsoFields) : List (BitVec 8) :=
  formatD 4 f.y.toNat ++ 45 :: formatD 2 f.mon.toNat ++ 45 :: formatD 2 f.day.toNat ++
    84 :: formatD 2 f.hr.toNat ++ 58 :: formatD 2 f.min.toNat ++ 58 :: formatD 2 f.sec.toNat ++
    46 :: formatD 3 f.ms.toNat ++ [90]

/-- What `ms_to_iso8601` leaves in the first bytes of `buf`. -/
def msToIso8601 (msEpoch : BitVec 64) (bufSize : Nat) : List (BitVec 8) :=
  ((isoText (isoFields msEpoch)).take (bufSize - 1) ++ [0]).take bufSize

def getJdn (days months years : Int) : Int :=
  (1461 * (years + 4800 + (months - 14).tdiv 12)).tdiv 4 +
    (367 * (months - 2 - 12 * (months - 14).tdiv 12)).tdiv 12 -
    (3 * (years + 4900 + (months - 14).tdiv 12).tdiv 100).tdiv 4 + days - 32075

def getUnixEpoch (seconds minutes hours days months : BitVec 8) (years : BitVec 16) : BitVec 64 :=
  let jdnCurrent := BitVec.ofInt 64 (getJdn days.toNat months.toNat years.toNat)
  let jdn1970 := BitVec.ofInt 64 (getJdn 1 1 1970)
  let jdnDiff := jdnCurrent - jdn1970
  jdnDiff * (60 * 60 * 24) + .ofNat 64 (hours.toNat * 3600) + .ofNat 64 (minutes.toNat * 60) +
    .ofNat 64 seconds.toNat

/-- `get_unix_timestamp`, where `fadtCentury` is `fadt->century`. -/
def getUnixTimestamp (fadtCentury : BitVec 8) (cmos : Nat → BitVec 8 → BitVec 8) : BitVec 64 :=
  let century := if fadtCentury ≠ 0 then readCmosReg cmos 0 fadtCentury else 0x20
  let n := if fadtCentury ≠ 0 then 1 else 0
  let secondsBuf := formatX (readCmosReg cmos n REGISTER_SECONDS).toNat
  let minutesBuf := formatX (readCmosReg cmos (n + 1) REGISTER_MINUTES).toNat
  let hoursBuf := formatX (readCmosReg cmos (n + 2) REGISTER_HOURS).toNat
  let dayBuf := formatX (readCmosReg cmos (n + 3) REGISTER_DAY_OF_MONTH).toNat
  let monthBuf := formatX (readCmosReg cmos (n + 4) REGISTER_MONTH).toNat
  let yearBuf := formatX century.toNat ++ formatX (readCmosReg cmos (n + 5) REGISTER_YEAR).toNat
  getUnixEpoch (.ofInt 8 (atoi secondsBuf)) (.ofInt 8 (atoi minutesBuf))
    (.ofInt 8 (atoi hoursBuf)) (.ofInt 8 (atoi dayBuf)) (.ofInt 8 (atoi monthBuf))
    (.ofInt 16 (atoi yearBuf))

end AdaOS
