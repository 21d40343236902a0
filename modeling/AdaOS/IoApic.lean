import AdaOS.Acpi

namespace AdaOS
set_option autoImplicit true
open ByteMem

/-- `1U << width` shifts by the low five bits of the width, as the processor does. -/
def extractBitRange (value : BitVec 32) (high low : BitVec 8) : BitVec 32 :=
  let width := high - low + 1
  let mask := if width = 32 then 0xFFFFFFFF else (1 <<< (width.toNat % 32)) - 1
  (value >>> (low.toNat % 32)) &&& mask

def testBitRange (value : BitVec 32) (high low : BitVec 8) (expected : BitVec 32) : Bool :=
  extractBitRange value high low = expected

/-- `io_apic_redirection_tbl_entry_t`. -/
structure RedirectionEntry where
  isrIndex : BitVec 8
  deliveryMode : BitVec 3
  destinationMode : BitVec 1
  deliveryStatus : BitVec 1
  polarity : BitVec 1
  remoteIrr : BitVec 1
  triggerMode : BitVec 1
  mask : BitVec 1
  reserved : BitVec 32
  physDestination : BitVec 3
  logDestination : BitVec 5
  deriving DecidableEq, Repr

/-- A call of `write_io_apic_redirection_entry`. -/
structure RedirectionWrite where
  base : Nat
  entry : RedirectionEntry
  index : BitVec 8
  deriving DecidableEq, Repr

/-- The little-endian number in `n` bytes of a packed struct. -/
def field (bytes : List (BitVec 8)) (offset n : Nat) : Nat :=
  load (fun i => bytes.getD i 0) offset n

def overridePolarity (flags : BitVec 8) : BitVec 8 :=
  let polarity := extractBitRange (flags.setWidth 32) 1 0
  if polarity = 0b11 ∨ polarity = 0b00 then 0x00
  else if polarity = 0b01 then 0xff
  else 0x00

def overrideTriggerMode (flags : BitVec 8) : BitVec 8 :=
  let triggerMode := extractBitRange (flags.setWidth 32) 4 2
  if triggerMode = 0b00 ∨ triggerMode = 0b01 then 0x00
  else if triggerMode = 0b11 then 0xff
  else 0x00

/-- The entry for a source override; the fields not set keep what the stack held. -/
def overrideEntry (stack : RedirectionEntry) (flags : BitVec 8) : RedirectionEntry :=
  { stack with
    isrIndex := 0xff
    deliveryMode := 0
    destinationMode := 0
    polarity := (overridePolarity flags).setWidth 1
    triggerMode := (overrideTriggerMode flags).setWidth 1 }

/-- One turn of the loop over the source overrides, with the calls made so far and the index of
the next. -/
def routeOverride (stack : RedirectionEntry) (virtBase : Nat) (lowest highest : BitVec 8)
    (w : Madt) (calls : List RedirectionWrite × BitVec 8) (q : Nat) :
    List RedirectionWrite × BitVec 8 :=
  let source := w.entries .ioApicSourceOverrides q
  let systemInt := field source 2 4
  if systemInt < highest.toNat ∧ systemInt > lowest.toNat then
    let flags := BitVec.ofNat 8 (field source 6 2)
    (calls.1 ++ [⟨virtBase, overrideEntry stack flags, calls.2⟩], calls.2 + 1)
  else calls

variable {σ : Type} (A : FrameAllocator σ)

def ioApicFlags : BitVec 64 := pteNx ||| ptePcd ||| pteWritable

/-- One turn of the loop of `setup_io_apic`. -/
def setupIoApicAt (higherHalf : Nat) (pl : Platform) (stack : RedirectionEntry) (w : Madt)
    (i : Nat) (h : Heap σ) : Except Fault (List RedirectionWrite × Heap σ) := do
  let ioApic := w.entries .ioApics i
  let id := field ioApic 0 1
  let base := field ioApic 2 4
  let virtBase := u64 (base + higherHalf)
  let (mapped, h) ← h.mapDirect A higherHalf base ioApicFlags
  if mapped = false then .error (.panic "Could not map page for IO APIC!")
  else
    let lowest := BitVec.ofNat 8 (field ioApic 6 4)
    let maxEntries := (extractBitRange (pl.ioApicRegister base 1) 23 16).setWidth 8
    let highest := maxEntries + lowest
    if testBitRange (pl.ioApicRegister base 0) 27 23 (BitVec.ofNat 32 id) = false then
      .error (.panic "APIC ID did not match expected value!")
    else
      let overrides := List.range (w.num .ioApicSourceOverrides).toNat
      .ok ((overrides.foldl (routeOverride stack virtBase lowest highest w) ([], 0)).1, h)

/-- The loop of `setup_io_apic`, `n` turns from IO APIC `i` on. -/
def setupIoApics (higherHalf : Nat) (pl : Platform) (stack : RedirectionEntry) (w : Madt)
    (i : Nat) : Nat → Heap σ → Except Fault (List RedirectionWrite × Heap σ)
  | 0, h => .ok ([], h)
  | n + 1, h => do
    let (calls, h) ← setupIoApicAt A higherHalf pl stack w i h
    let (rest, h) ← setupIoApics higherHalf pl stack w (i + 1) n h
    .ok (calls ++ rest, h)

def setupIoApic (higherHalf : Nat) (pl : Platform) (stack : RedirectionEntry) (w : Madt)
    (h : Heap σ) : Except Fault (List RedirectionWrite × Heap σ) :=
  setupIoApics A higherHalf pl stack w 0 (w.num .ioApics).toNat h

end AdaOS
