import AdaOS.Basic

namespace AdaOS
set_option autoImplicit true

def PIT_FREQUENCY : BitVec 32 := 1193182
def PIT_GOAL_FREQUENCY : BitVec 32 := 1000
def PIT_CHANNEL0_PORT : BitVec 16 := 0x40
def PIT_CHANNEL2_PORT : BitVec 16 := 0x42
def PIT_CONTROL_PORT : BitVec 16 := 0x43

/-- The bytes that `set_pit_frequency` writes, each to its port. A frequency of zero, for which the
code divides by zero, gives a divisor of zero here. -/
def setPitFrequency (frequency : BitVec 32) : List (BitVec 16 × BitVec 8) :=
  let divisor := PIT_FREQUENCY / frequency
  [(PIT_CONTROL_PORT, 0x36), (PIT_CHANNEL0_PORT, (divisor &&& 0xff).setWidth 8),
    (PIT_CHANNEL0_PORT, (divisor >>> 8).setWidth 8)]

def setSpeakerFrequency (frequency : BitVec 32) : List (BitVec 16 × BitVec 8) :=
  let divisor := PIT_FREQUENCY / frequency
  [(PIT_CONTROL_PORT, 0xB6), (PIT_CHANNEL2_PORT, (divisor &&& 0xff).setWidth 8),
    (PIT_CHANNEL2_PORT, (divisor >>> 8).setWidth 8)]

/-- The bytes that `play_sound` writes, where `tmp` is what it reads from port 0x61. -/
def playSound (frequency : BitVec 32) (tmp : BitVec 8) : List (BitVec 16 × BitVec 8) :=
  if frequency = 0 then []
  else setSpeakerFrequency frequency ++ if tmp &&& 3 ≠ 3 then [(0x61, tmp ||| 3)] else []

def soundOff (tmp : BitVec 8) : List (BitVec 16 × BitVec 8) := [(0x61, tmp &&& 0xFC)]

/-- `(ms * timer_goal_frequency) / 1000`, in 32 bits. -/
def sleepTicks (ms timerGoalFrequency : BitVec 32) : BitVec 64 :=
  (ms * timerGoalFrequency / 1000).setWidth 64

/-- The loop of `pit_sleep_ms`, where `ticks n` is what the `n`-th `get_pit_ticks` of the call
returns. It gives the number of the read at which the loop ends. -/
def pitSleepLoop (ms timerGoalFrequency : BitVec 32) (ticks : Nat → BitVec 64) :
    Nat → Nat → BitVec 64 → BitVec 64 → Except Fault Nat
  | 0, _, _, _ => .error .diverges
  | fuel + 1, n, startTicks, endTicks =>
    if ticks n < endTicks then
      let currentTicks := ticks (n + 1)
      if currentTicks < startTicks then
        pitSleepLoop ms timerGoalFrequency ticks fuel (n + 2) currentTicks
          (currentTicks + sleepTicks ms timerGoalFrequency)
      else pitSleepLoop ms timerGoalFrequency ticks fuel (n + 2) startTicks endTicks
    else .ok n

def pitSleepMs (ms timerGoalFrequency : BitVec 32) (ticks : Nat → BitVec 64) (fuel : Nat) :
    Except Fault (List (BitVec 16 × BitVec 8) × Nat) := do
  let writes := setPitFrequency timerGoalFrequency
  let startTicks := ticks 0
  let endTicks := startTicks + sleepTicks ms timerGoalFrequency - 1
  let n ← pitSleepLoop ms timerGoalFrequency ticks fuel 1 startTicks endTicks
  return (writes, n)

/-- The interrupts up to the `n`-th read, when `passed i` come between the reads `i` and `i + 1`. -/
def elapsed (passed : Nat → Nat) : Nat → Nat
  | 0 => 0
  | n + 1 => elapsed passed n + passed n

/-- What `get_pit_ticks` returns: `pit_irq` adds one for each interrupt. -/
def ticksAt (start : BitVec 64) (passed : Nat → Nat) (n : Nat) : BitVec 64 :=
  start + .ofNat 64 (elapsed passed n)

/-- The interrupts of a call: from the second read of the loop on every other read comes after a
`hlt`, which the next interrupt ends, and at most one more comes while the code runs from a read
to the next one or to the `hlt`. They do not stop. -/
structure Interrupts (passed : Nat → Nat) : Prop where
  first : passed 0 ≤ 1
  turn : ∀ n, passed (2 * n + 1) ≤ 1
  halt : ∀ n, passed (2 * n + 2) ≤ 2
  coming : ∀ k, ∃ n, k ≤ elapsed passed n

end AdaOS
