import AdaOS.ApicSleep
import AdaOS.Log

namespace AdaOS.Printf
set_option autoImplicit true

def PANIC_SOUND_INTERVAL : BitVec 32 := 200
def PANIC_SOUND_FREQUENCY : BitVec 32 := 400
def PANIC_BEEPS : Nat := 6

/-- What `get_global_state` gives of the timers. -/
structure GlobalState where
  pitInitialized : BitVec 8
  apicInitialized : BitVec 8

/-- What `panic` finds: `apicTicks n` and `pitTicks n` are what the counters show in its `n`-th
sleep, and `port61 n` is the `n`-th byte that it reads from port 0x61. -/
structure Alarm where
  state : GlobalState
  timerGoalFrequency : BitVec 32
  apicTicks : Nat → Nat → BitVec 64
  pitTicks : Nat → Nat → BitVec 64
  port61 : Nat → BitVec 8

section Panic
variable (font : Nat → BitVec 64) (alarm : Alarm) (fuel : Nat)

/-- The first sleep of a turn, with what `pit_sleep_ms` writes. -/
def panicSleep (n : Nat) : Except Fault (List (BitVec 16 × BitVec 8)) :=
  if alarm.state.apicInitialized = 0xf0 then do
    let _ ← apicSleepMs PANIC_SOUND_INTERVAL (alarm.apicTicks n) fuel
    .ok []
  else do
    let (writes, _) ← pitSleepMs PANIC_SOUND_INTERVAL alarm.timerGoalFrequency (alarm.pitTicks n)
      fuel
    .ok writes

/-- A turn of the loop in `panic`, with what it writes to the ports. -/
def panicBeep (i : Nat) : Except Fault (List (BitVec 16 × BitVec 8)) := do
  let on := playSound PANIC_SOUND_FREQUENCY (alarm.port61 (2 * i))
  let slept ← panicSleep alarm fuel (2 * i)
  let off := soundOff (alarm.port61 (2 * i + 1))
  if alarm.state.apicInitialized = 0xf0 then
    let _ ← apicSleepMs PANIC_SOUND_INTERVAL (alarm.apicTicks (2 * i + 1)) fuel
  .ok (on ++ slept ++ off)

/-- The loop of `panic`, `n` turns from the `i`-th on. -/
def panicBeeps (i : Nat) : Nat → Except Fault (List (BitVec 16 × BitVec 8))
  | 0 => .ok []
  | n + 1 => do
    let writes ← panicBeep alarm fuel i
    let rest ← panicBeeps (i + 1) n
    .ok (writes ++ rest)

/-- What `panic` prints and writes to the ports before it halts, and `panics` after it. -/
def panic (c : Console) (panics : BitVec 8) (msg : String) :
    Except Fault (Console × BitVec 8 × List (BitVec 16 × BitVec 8)) :=
  if panics > 0 then do
    let c ← kErr font c
      (stringLiteral "Something is super fucky, panic panicked %d time(s). yay osdev >:3")
      [.ofInt (panics.setWidth 32)]
    .ok (c, panics, [])
  else do
    let panics := panics + 1
    let c ← kErr font c (stringLiteral "Unrecoverable error: %s Halt.") [.ofString msg]
    let writes ← if alarm.state.pitInitialized ≠ 0 then panicBeeps alarm fuel 0 PANIC_BEEPS
      else .ok []
    .ok (c, panics, writes)

end Panic

/-- The timers as they are from `setup_pit` on, when no interrupt is handled: the counters stand
still, with room for a sleep. -/
structure Alarm.Stopped (alarm : Alarm) (apic pit : BitVec 64) : Prop where
  goal : alarm.state.pitInitialized ≠ 0 → alarm.timerGoalFrequency = PIT_GOAL_FREQUENCY
  apicTicks : alarm.apicTicks = fun _ _ => apic
  pitTicks : alarm.pitTicks = fun _ _ => pit
  apicRoom : apic.toNat + PANIC_SOUND_INTERVAL.toNat < 2 ^ 64
  pitRoom : pit.toNat + PANIC_SOUND_INTERVAL.toNat + 1 < 2 ^ 64

theorem Alarm.Stopped.panicBeep (h : Alarm.Stopped alarm apic pit)
    (hinit : alarm.state.pitInitialized ≠ 0) (fuel i : Nat) :
    panicBeep alarm fuel i = .error .diverges := by
  have hsleep : panicSleep alarm fuel (2 * i) = .error .diverges := by
    rw [panicSleep, h.apicTicks, h.pitTicks, h.goal hinit]
    split_ifs
    · rw [apicSleepMs_stopped (by decide) h.apicRoom]
      rfl
    · rw [pitSleepMs_stopped (by decide) h.pitRoom]
      rfl
  rw [Printf.panicBeep, hsleep]
  rfl

theorem Alarm.Stopped.panic_hangs (h : Alarm.Stopped alarm apic pit)
    (hinit : alarm.state.pitInitialized ≠ 0) (font : Nat → BitVec 64) (fuel : Nat) (c : Console)
    (msg : String) : panic font alarm fuel c 0 msg ≠ .ok r := by
  rw [panic, if_neg (by decide)]
  intro hok
  obtain ⟨d, _, hrest⟩ := bind_ok hok
  rw [if_pos hinit, PANIC_BEEPS, panicBeeps, h.panicBeep hinit] at hrest
  cases hrest

end AdaOS.Printf
