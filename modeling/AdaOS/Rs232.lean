import AdaOS.Basic

namespace AdaOS
set_option autoImplicit true

/-- The first serial port: how often its line status is read, and the bytes written to `IO`. -/
structure Com1 where
  statusReads : Nat
  written : List (BitVec 8)
  deriving DecidableEq

def transmitterReady (lineStatus : BitVec 8) : Bool := lineStatus &&& 1#8 <<< 5 != 0

/-- What `serial_writeb_unsafe_nonblocking` writes to `IO`. -/
def ioBytes (byte : BitVec 8) : List (BitVec 8) :=
  if byte = 0x0a ∨ byte = 0x0d then [0x0d, 0x0a] else [byte]

def Com1.serialWritebUnsafeNonblocking (port : Com1) (byte : BitVec 8) : Com1 :=
  { port with written := port.written ++ ioBytes byte }

section Polling
variable (lineStatus : Nat → BitVec 8)

/-- `serial_writeb_blocking`, where the `n`-th read of the line status gives `lineStatus n`. -/
def Com1.serialWritebBlocking (port : Com1) (byte : BitVec 8) : Nat → Except Fault Com1
  | 0 => .error .diverges
  | fuel + 1 =>
    let polled := { port with statusReads := port.statusReads + 1 }
    if transmitterReady (lineStatus port.statusReads) then
      .ok (polled.serialWritebUnsafeNonblocking byte)
    else polled.serialWritebBlocking byte fuel

/-- The loop of `serial_write_string`, whose index is a byte. At most `wait` reads of the line
status come before each byte. -/
def Com1.serialWriteStringFrom (s : Nat → BitVec 8) (wait : Nat) :
    Nat → Nat → Com1 → Except Fault Com1
  | 0, _, _ => .error .diverges
  | fuel + 1, i, port =>
    if s i = 0 then .ok port
    else do
      let port ← port.serialWritebBlocking lineStatus (s i) wait
      Com1.serialWriteStringFrom s wait fuel ((i + 1) % 256) port

def Com1.serialWriteString (port : Com1) (s : Nat → BitVec 8) (wait fuel : Nat) :
    Except Fault Com1 :=
  Com1.serialWriteStringFrom lineStatus s wait fuel 0 port

end Polling

def Ready (lineStatus : Nat → BitVec 8) : Prop :=
  ∀ n, ∃ m, n ≤ m ∧ transmitterReady (lineStatus m) = true

theorem Com1.serialWritebBlocking_mono {lineStatus : Nat → BitVec 8} {port port' : Com1}
    (h : port.serialWritebBlocking lineStatus byte fuel = .ok port') (hle : fuel ≤ fuel') :
    port.serialWritebBlocking lineStatus byte fuel' = .ok port' := by
  induction fuel generalizing port fuel' with
  | zero => cases h
  | succ fuel ih =>
    obtain ⟨fuel', rfl⟩ : ∃ k, fuel' = k + 1 := ⟨fuel' - 1, by omega⟩
    rw [serialWritebBlocking] at h ⊢
    by_cases hready : transmitterReady (lineStatus port.statusReads) = true
    · simp only [if_pos hready] at h ⊢
      exact h
    · simp only [if_neg hready] at h ⊢
      exact ih h (Nat.le_of_succ_le_succ hle)

theorem Com1.serialWritebBlocking_ok {lineStatus : Nat → BitVec 8}
    (hready : transmitterReady (lineStatus m) = true) (port : Com1)
    (hfuel : m < port.statusReads + fuel) (hle : port.statusReads ≤ m) (byte : BitVec 8) :
    ∃ port', port.serialWritebBlocking lineStatus byte fuel = .ok port' ∧
      port'.written = port.written ++ ioBytes byte := by
  induction fuel generalizing port with
  | zero => exact absurd hle (Nat.not_le.2 hfuel)
  | succ fuel ih =>
    rw [serialWritebBlocking]
    by_cases hnow : transmitterReady (lineStatus port.statusReads) = true
    · exact ⟨_, if_pos hnow, rfl⟩
    · have hlater : port.statusReads ≠ m := fun he => hnow (he ▸ hready)
      simp only [if_neg hnow]
      apply ih { port with statusReads := port.statusReads + 1 }
      · change m < port.statusReads + 1 + fuel
        omega
      · exact Nat.lt_of_le_of_ne hle hlater

theorem Ready.serialWritebBlocking {lineStatus : Nat → BitVec 8} (h : Ready lineStatus)
    (port : Com1) (byte : BitVec 8) :
    ∃ wait port', port.serialWritebBlocking lineStatus byte wait = .ok port' ∧
      port'.written = port.written ++ ioBytes byte := by
  obtain ⟨m, hle, hready⟩ := h port.statusReads
  exact ⟨m + 1, port.serialWritebBlocking_ok hready (by omega) hle byte⟩

end AdaOS
