import AdaOS.ApicSleep
import AdaOS.HeapSupply
import AdaOS.Log
import AdaOS.PrintfRtc

namespace AdaOS.Printf
set_option autoImplicit true

open Traced ByteMem

def CMOS_UPDATE_TIME : BitVec 32 := 10

/-- `read_cmos_reg` with its wait, where `ticks n` is the clock in the `n`-th call. -/
def waitAndReadCmosReg (ticks : Nat → Nat → BitVec 64) (fuel : Nat)
    (cmos : Nat → BitVec 8 → BitVec 8) (n : Nat) (offset : BitVec 8) :
    Except Fault (BitVec 8) := do
  let _ ← apicSleepMs CMOS_UPDATE_TIME (ticks n) fuel
  .ok (readCmosReg cmos n offset)

section Time
variable (font : Nat → BitVec 64) (readReg : Nat → BitVec 8 → Except Fault (BitVec 8))

def noCentury : List (BitVec 8) :=
  stringLiteral "No century supported in RTC, assuming it's still 20xx."

/-- The century, and how often `read_cmos_reg` has been called for it. -/
def readCentury (fadtCentury : BitVec 8) (c : Console) :
    Except Fault (BitVec 8 × Nat × Console) :=
  if fadtCentury ≠ 0 then do
    let century ← readReg 0 fadtCentury
    .ok (century, 1, c)
  else do
    let c ← kWrn font c noCentury []
    .ok (0x20, 0, c)

def printReg (buf : List (BitVec 8)) (n : Nat) (offset : BitVec 8) :
    Except Fault (List (BitVec 8)) := do
  let value ← readReg n offset
  printTo buf (literal "%x" ++ [0]) [.ofInt (value.setWidth 32)]

/-- `get_unix_timestamp` with all that it calls. -/
def getUnixTimestampRun (bufs : TimeBuffers) (fadtCentury : BitVec 8) (c : Console) :
    Except Fault (BitVec 64 × Console) := do
  let (century, n, c) ← readCentury font readReg fadtCentury c
  let secondsBuf ← printReg readReg bufs.secondsBuf n REGISTER_SECONDS
  let minutesBuf ← printReg readReg bufs.minutesBuf (n + 1) REGISTER_MINUTES
  let hoursBuf ← printReg readReg bufs.hoursBuf (n + 2) REGISTER_HOURS
  let dayBuf ← printReg readReg bufs.dayBuf (n + 3) REGISTER_DAY_OF_MONTH
  let monthBuf ← printReg readReg bufs.monthBuf (n + 4) REGISTER_MONTH
  let year ← readReg (n + 5) REGISTER_YEAR
  let yearBuf ← printTo bufs.yearBuf (literal "%x%x" ++ [0])
    [.ofInt (century.setWidth 32), .ofInt (year.setWidth 32)]
  let seconds ← atoiFrom 0 secondsBuf
  let minutes ← atoiFrom 0 minutesBuf
  let hours ← atoiFrom 0 hoursBuf
  let day ← atoiFrom 0 dayBuf
  let month ← atoiFrom 0 monthBuf
  let years ← atoiFrom 0 yearBuf
  .ok (getUnixEpoch (.ofInt 8 seconds) (.ofInt 8 minutes) (.ofInt 8 hours) (.ofInt 8 day)
    (.ofInt 8 month) (.ofInt 16 years), c)

def bytesAt (m : Mem) (a n : Nat) : List (BitVec 8) := (List.range n).map fun i => m (a + i)

def storeBytes (m : Mem) (a : Nat) (t : List (BitVec 8)) : Mem :=
  fun c => if a ≤ c then t[c - a]?.getD (m c) else m c

/-- The arguments of `snprintf` in `ms_to_iso8601`. -/
def isoArgs (f : IsoFields) : List Arg :=
  [f.y, f.mon, f.day, f.hr, f.min, f.sec, f.ms].map .ofInt

/-- `ms_to_iso8601` on a buffer in memory. -/
def msToIso8601Run (msEpoch : BitVec 64) (m : Mem) (buf bufSize : Nat) : Except Fault Mem := do
  let array := if buf = 0 then none else some (bytesAt m buf bufSize)
  let (written, _) ← snprintf array bufSize isoFormat (isoArgs (isoFields msEpoch))
  .ok (storeBytes m buf (written.getD []))

def getFormattedTime (A : FrameAllocator σ) (bufs : TimeBuffers) (fadtCentury : BitVec 8)
    (c : Console) (h : Heap σ) : Except Fault (Nat × Console × Heap σ) := do
  let (buf, h) ← kmalloc A h 25
  let (time, c) ← getUnixTimestampRun font readReg bufs fadtCentury c
  let bytes ← msToIso8601Run (time * 1000) h.bytes buf 25
  .ok (buf, c, { h with bytes := bytes })

end Time

theorem text_plainLiteral {s : String} (h : ∀ b ∈ literal s, (Piece.lit b).Wf) :
    text (stringLiteral s) [] = emits (literal s) := by
  have hcomes := ComesTo.nil.lits (literal s)
  rw [List.append_nil, List.append_nil] at hcomes
  have hrender : render ((literal s).map .lit) = literal s := by
    induction literal s with
    | nil => rfl
    | cons b t ih => exact congrArg (b :: ·) ih
  have hwf : ∀ p ∈ (literal s).map Piece.lit, p.Wf := by
    intro p hp
    obtain ⟨b, hb, rfl⟩ := List.mem_map.1 hp
    exact h b hb
  have htext := hcomes.text_eq hwf []
  rwa [hrender] at htext

theorem noCentury_text :
    text noCentury [] = emits (literal "No century supported in RTC, assuming it's still 20xx.") :=
  text_plainLiteral (by decide)

theorem length_bytesAt (m : Mem) (a n : Nat) : (bytesAt m a n).length = n := by
  rw [bytesAt, List.length_map, List.length_range]

theorem getElem_bytesAt (m : Mem) (a : Nat) (h : i < (bytesAt m a n).length) :
    (bytesAt m a n)[i] = m (a + i) := by
  simp only [bytesAt, List.getElem_map, List.getElem_range]

theorem storeBytes_of_outside {m : Mem} {t : List (BitVec 8)} (h : c < a ∨ a + t.length ≤ c) :
    storeBytes m a t c = m c := by
  rw [storeBytes]
  split
  · rw [List.getElem?_eq_none (by omega)]
    rfl
  · rfl

theorem storeBytes_at {m : Mem} {t : List (BitVec 8)} (h : i < t.length) :
    storeBytes m a t (a + i) = t[i] := by
  rw [storeBytes, if_pos (Nat.le_add_right a i), Nat.add_sub_cancel_left,
    List.getElem?_eq_getElem h]
  rfl

theorem int_isoArgs (f : IsoFields) :
    (isoArgs f).map Arg.int = [f.y, f.mon, f.day, f.hr, f.min, f.sec, f.ms] := by
  have hint : ∀ x : BitVec 32, (Arg.ofInt x).int = x := by
    intro x
    change (x.setWidth 64).truncate 32 = x
    rw [BitVec.truncate_eq_setWidth, BitVec.setWidth_setWidth_of_le _ (by decide),
      BitVec.setWidth_eq]
  simp only [isoArgs, List.map_cons, List.map_nil, hint]

theorem length_msToIso8601_le (t : BitVec 64) (n : Nat) : (msToIso8601 t n).length ≤ n := by
  rw [msToIso8601, List.length_take]
  exact Nat.min_le_left ..

/-- `ms_to_iso8601` writes its text at the start of the buffer and nothing behind the buffer. -/
theorem msToIso8601Run_eq (t : BitVec 64) (m : Mem) (hbuf : buf ≠ 0) (hsize : n < 2 ^ 64) :
    ∃ m', msToIso8601Run t m buf n = .ok m' ∧
      (∀ a, a < buf ∨ buf + n ≤ a → m' a = m a) ∧
      bytesAt m' buf (msToIso8601 t n).length = msToIso8601 t n := by
  have hle := length_msToIso8601_le t n
  have hsnprintf := snprintf_isoFormat t (int_isoArgs _)
    (Nat.le_of_eq (length_bytesAt m buf n).symm) hsize
  obtain ⟨rest, hrest⟩ : ∃ rest, rest = (bytesAt m buf n).drop (msToIso8601 t n).length := ⟨_, rfl⟩
  have hlen : (msToIso8601 t n ++ rest).length = n := by
    rw [hrest, List.length_append, List.length_drop, length_bytesAt]
    omega
  rw [← hrest] at hsnprintf
  refine ⟨storeBytes m buf (msToIso8601 t n ++ rest), ?_, ?_, ?_⟩
  · rw [msToIso8601Run, if_neg hbuf]
    dsimp only
    rw [hsnprintf]
    rfl
  · intro a ha
    apply storeBytes_of_outside
    rwa [hlen]
  · apply List.ext_getElem (length_bytesAt ..)
    intro i hi hi'
    have hin : i < (msToIso8601 t n ++ rest).length := by
      rw [List.length_append]
      omega
    rw [getElem_bytesAt, storeBytes_at hin, List.getElem_append_left hi']

section Clock
variable {cmos : Nat → BitVec 8 → BitVec 8} {readReg : Nat → BitVec 8 → Except Fault (BitVec 8)}
  {fb : Framebuffer} {c : Console} {bufs : TimeBuffers}

theorem printReg_eq (h : readReg n offset = .ok x) (hbuf : buf.length = 9) :
    ∃ stored, printReg readReg buf n offset = .ok stored ∧
      atoiFrom 0 stored = .ok (AdaOS.atoi (formatX x.toNat)) := by
  obtain ⟨stored, hstored, hvalue⟩ := printTo_hex x hbuf
  refine ⟨stored, ?_, hvalue⟩
  rw [printReg, bind_of_ok h]
  exact hstored

theorem readCentury_eq
    (hread : ∀ n < 7, ∀ offset, readReg n offset = .ok (readCmosReg cmos n offset))
    (hon : c.On fb) (hf : fb.Fits) (hs : 128 ≤ fb.stride) (font : Nat → BitVec 64)
    (fadtCentury : BitVec 8) :
    ∃ d, readCentury font readReg fadtCentury c =
        .ok (if fadtCentury ≠ 0 then readCmosReg cmos 0 fadtCentury else 0x20,
          if fadtCentury ≠ 0 then 1 else 0, d) ∧
      d.On fb ∧ (fadtCentury ≠ 0 → d = c) := by
  rw [readCentury]
  by_cases hcentury : fadtCentury ≠ 0
  · refine ⟨c, ?_, hon, fun _ => rfl⟩
    rw [if_pos hcentury, if_pos hcentury, if_pos hcentury, hread 0 (by decide)]
    rfl
  · obtain ⟨d, hd, hprints⟩ := kTagged_prints hon hf hs font WRN_TEXT_COLOUR
      (by decide : 0 ∉ literal "WRN" ∧ (literal "WRN").length < 256)
      (by decide : 0 ∉ literal "] Kernel: " ∧ (literal "] Kernel: ").length < 256) noCentury_text
      (by decide) (by decide)
    refine ⟨d, ?_, hprints.on, fun h => absurd h hcentury⟩
    rw [if_neg hcentury, if_neg hcentury, if_neg hcentury, kWrn, hd]
    rfl

/-- The calls of `snprintf_` in `get_unix_timestamp` stay inside their arrays, whatever the clock
gives and the arrays held, and the time is the one `getUnixTimestamp` says. -/
theorem getUnixTimestampRun_eq
    (hread : ∀ n < 7, ∀ offset, readReg n offset = .ok (readCmosReg cmos n offset))
    (hbufs : bufs.Wf) (hon : c.On fb) (hf : fb.Fits) (hs : 128 ≤ fb.stride)
    (font : Nat → BitVec 64) (fadtCentury : BitVec 8) :
    ∃ d, getUnixTimestampRun font readReg bufs fadtCentury c =
        .ok (getUnixTimestamp fadtCentury cmos, d) ∧
      d.On fb ∧ (fadtCentury ≠ 0 → d = c) := by
  obtain ⟨d, hcentury, hd, hsame⟩ := readCentury_eq hread hon hf hs font fadtCentury
  refine ⟨d, ?_, hd, hsame⟩
  rw [getUnixTimestampRun, bind_of_ok hcentury]
  dsimp only
  have hn : (if fadtCentury ≠ 0 then 1 else 0) ≤ 1 := by
    split <;> decide
  generalize hfirst : (if fadtCentury ≠ 0 then 1 else 0) = n at *
  obtain ⟨b₁, h₁, v₁⟩ := printReg_eq (hread n (by omega) REGISTER_SECONDS) hbufs.seconds
  obtain ⟨b₂, h₂, v₂⟩ := printReg_eq (hread (n + 1) (by omega) REGISTER_MINUTES) hbufs.minutes
  obtain ⟨b₃, h₃, v₃⟩ := printReg_eq (hread (n + 2) (by omega) REGISTER_HOURS) hbufs.hours
  obtain ⟨b₄, h₄, v₄⟩ := printReg_eq (hread (n + 3) (by omega) REGISTER_DAY_OF_MONTH) hbufs.day
  obtain ⟨b₅, h₅, v₅⟩ := printReg_eq (hread (n + 4) (by omega) REGISTER_MONTH) hbufs.month
  obtain ⟨b₆, h₆, v₆⟩ := printTo_year
    (if fadtCentury ≠ 0 then readCmosReg cmos 0 fadtCentury else 0x20)
    (readCmosReg cmos (n + 5) REGISTER_YEAR) hbufs.year
  rw [bind_of_ok h₁, bind_of_ok h₂, bind_of_ok h₃, bind_of_ok h₄, bind_of_ok h₅,
    bind_of_ok (hread (n + 5) (by omega) REGISTER_YEAR), bind_of_ok h₆, bind_of_ok v₁,
    bind_of_ok v₂, bind_of_ok v₃, bind_of_ok v₄, bind_of_ok v₅, bind_of_ok v₆, getUnixTimestamp,
    hfirst]

end Clock

/-- In each call of `read_cmos_reg` the interrupts of the timer are handled. -/
def Ticking (ticks : Nat → Nat → BitVec 64) : Prop :=
  ∀ n, ∃ start passed, ticks n = ticksAt start passed ∧ Interrupts passed ∧
    start.toNat + CMOS_UPDATE_TIME.toNat + 2 < 2 ^ 64

theorem Ticking.reads (h : Ticking ticks) (cmos : Nat → BitVec 8 → BitVec 8) (k : Nat) :
    ∃ fuel, ∀ n < k, ∀ offset,
      waitAndReadCmosReg ticks fuel cmos n offset = .ok (readCmosReg cmos n offset) := by
  induction k with
  | zero => exact ⟨0, fun n hn => absurd hn (Nat.not_lt_zero n)⟩
  | succ k ih =>
    obtain ⟨fuel, hfuel⟩ := ih
    obtain ⟨start, passed, hticks, hi, hroom⟩ := h k
    obtain ⟨fuel', m, hm, _, _⟩ := apicSleepMs_ends CMOS_UPDATE_TIME start hi hroom
    rw [← hticks] at hm
    refine ⟨max fuel fuel', fun n hn offset => ?_⟩
    have hsleep : ∃ m, apicSleepMs CMOS_UPDATE_TIME (ticks n) (max fuel fuel') = .ok m := by
      obtain hlt | rfl := Nat.lt_or_eq_of_le (Nat.le_of_lt_succ hn)
      · obtain ⟨m, hsleep, _⟩ := bind_ok (hfuel n hlt offset)
        exact ⟨m, apicSleepLoop_mono hsleep (Nat.le_max_left ..)⟩
      · exact ⟨m, apicSleepLoop_mono hm (Nat.le_max_right ..)⟩
    obtain ⟨m, hsleep⟩ := hsleep
    rw [waitAndReadCmosReg, bind_of_ok hsleep]

section FormattedTime
variable {σ : Type} {A : FrameAllocator σ} {h h' : Heap σ} {live : List (Nat × Nat)}
  {l : List Blocks.Block} {ticks : Nat → Nat → BitVec 64} {fb : Framebuffer} {c : Console}
  {bufs : TimeBuffers}

/-- Where the timer's interrupts are handled, `get_formatted_time` leaves the time in a block of the
heap that is new, and changes no other block. -/
theorem getFormattedTime_eq (hi : HeapInv A h live l) (hk : kmalloc A h 25 = .ok (p, h'))
    (hp : p ≠ 0) (hticks : Ticking ticks) (hbufs : bufs.Wf) (hon : c.On fb) (hf : fb.Fits)
    (hs : 128 ≤ fb.stride) (font : Nat → BitVec 64) (fadtCentury : BitVec 8)
    (cmos : Nat → BitVec 8 → BitVec 8) :
    ∃ fuel d h'' l', getFormattedTime font (waitAndReadCmosReg ticks fuel cmos) A bufs fadtCentury
        c h = .ok (p, d, h'') ∧ d.On fb ∧ HeapInv A h'' ((p, 25) :: live) l' ∧
      Keeps (h.used live) h h'' ∧
      bytesAt h''.bytes p (msToIso8601 (getUnixTimestamp fadtCentury cmos * 1000) 25).length =
        msToIso8601 (getUnixTimestamp fadtCentury cmos * 1000) 25 := by
  obtain ⟨⟨l', hinv⟩, hkeeps⟩ := hi.of_kmalloc_block hk (by decide) hp
  obtain ⟨fuel, hread⟩ := hticks.reads cmos 7
  obtain ⟨d, htime, hd, _⟩ := getUnixTimestampRun_eq hread hbufs hon hf hs font fadtCentury
  obtain ⟨m, hm, houtside, htext⟩ := msToIso8601Run_eq
    (getUnixTimestamp fadtCentury cmos * 1000) h'.bytes hp (by decide : 25 < 2 ^ 64)
  obtain ⟨hwritten, hkeeps'⟩ := hinv.write_new houtside
  refine ⟨fuel, d, { h' with bytes := m }, l', ?_, hd, hwritten, ?_, htext⟩
  · rw [getFormattedTime, bind_of_ok hk]
    dsimp only
    rw [bind_of_ok htime]
    dsimp only
    rw [bind_of_ok hm]
  · rw [hkeeps.used_eq fun b hb => hi.room (List.mem_append_left _ hb)] at hkeeps'
    exact hkeeps.trans hkeeps'

def zeroBuffers : TimeBuffers where
  secondsBuf := List.replicate 9 0
  minutesBuf := List.replicate 9 0
  hoursBuf := List.replicate 9 0
  dayBuf := List.replicate 9 0
  monthBuf := List.replicate 9 0
  yearBuf := List.replicate 9 0

theorem getFormattedTime_eq_tight : ∃ (h h' : Heap (PoolState tightPool)) (p : Nat),
    kmalloc (framePool tightPool tightPool_length) h 25 = .ok (p, h') ∧
    ∃ fuel d h'' l', getFormattedTime (fun _ => 1)
        (waitAndReadCmosReg (fun _ => ticksAt 0 oneTickATurn) fuel fun _ _ => 0x21)
        (framePool tightPool tightPool_length) zeroBuffers 0x32 (Console.boot oneRow) h =
          .ok (p, d, h'') ∧ d.On oneRow ∧
      HeapInv (framePool tightPool tightPool_length) h'' [(p, 25)] l' ∧
      Keeps (h.used []) h h'' ∧
      bytesAt h''.bytes p
          (msToIso8601 (getUnixTimestamp 0x32 (fun _ _ => 0x21) * 1000) 25).length =
        msToIso8601 (getUnixTimestamp 0x32 (fun _ _ => 0x21) * 1000) 25 := by
  obtain ⟨h, _, hi, _⟩ := tightHeap
  obtain ⟨p, h', hk, hp, _⟩ := hi.kmalloc_split (show 25 ≠ 0 by decide) (by decide) (by decide)
  have hticks : Ticking fun _ => ticksAt 0 oneTickATurn :=
    fun _ => ⟨0, oneTickATurn, rfl, interrupts_oneTickATurn, by decide⟩
  exact ⟨h, h', p, hk, getFormattedTime_eq hi hk hp hticks ⟨rfl, rfl, rfl, rfl, rfl, rfl⟩
    (Console.boot_on oneRow_fits) oneRow_fits (by decide) _ _ _⟩

/-- In a handler no interrupts are handled: the clock stands still, and the first wait for the
CMOS never ends. -/
theorem getFormattedTime_hangs (hk : kmalloc A h 25 = .ok (p, h')) {t : BitVec 64}
    (ht : t.toNat + CMOS_UPDATE_TIME.toNat < 2 ^ 64) (hon : c.On fb) (hf : fb.Fits)
    (hs : 128 ≤ fb.stride) (font : Nat → BitVec 64) (fadtCentury : BitVec 8)
    (cmos : Nat → BitVec 8 → BitVec 8) (bufs : TimeBuffers) (fuel : Nat) :
    getFormattedTime font (waitAndReadCmosReg (fun _ _ => t) fuel cmos) A bufs fadtCentury c h =
      .error .diverges := by
  have hwait : ∀ n offset, waitAndReadCmosReg (fun _ _ => t) fuel cmos n offset =
      .error .diverges := by
    intro n offset
    rw [waitAndReadCmosReg, apicSleepMs_stopped (by decide) ht]
    rfl
  rw [getFormattedTime, bind_of_ok hk, getUnixTimestampRun, readCentury]
  by_cases hcentury : fadtCentury ≠ 0
  · rw [if_pos hcentury, hwait]
    rfl
  · obtain ⟨d, hd, _⟩ := kTagged_prints hon hf hs font WRN_TEXT_COLOUR
      (by decide : 0 ∉ literal "WRN" ∧ (literal "WRN").length < 256)
      (by decide : 0 ∉ literal "] Kernel: " ∧ (literal "] Kernel: ").length < 256) noCentury_text
      (by decide) (by decide)
    rw [if_neg hcentury, kWrn, hd, bind_of_ok rfl, bind_of_ok rfl]
    dsimp only
    rw [printReg, hwait]
    rfl

end FormattedTime

end AdaOS.Printf
