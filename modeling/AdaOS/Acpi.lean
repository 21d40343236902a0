import AdaOS.Core
import AdaOS.Heap
import AdaOS.Madt
import AdaOS.PageMap
import AdaOS.Printf

namespace AdaOS
set_option autoImplicit true
open ByteMem

/-- What the boot finds outside the kernel: the bytes of physical memory, which stay the same while
`bootstrap_acpi` runs, the address in the bootloader's RSDP response (`none` without a response),
the registers it reads, and what the stack held before. -/
structure Platform where
  ram : Mem
  rsdp : Option Nat
  apicBase : BitVec 64
  apicVersion : BitVec 32
  apicSpurious : BitVec 32
  ioApicRegister : Nat → Nat → BitVec 32
  lastType : BitVec 8

/-- The global variables of `acpi.c` that `bootstrap_acpi` sets. -/
structure AcpiVars where
  madt : Madt
  fadt : Nat
  facsPtr : Nat

/-- No record is counted and no table found yet. -/
def AcpiVars.initial (lastType : BitVec 8) : AcpiVars :=
  ⟨Madt.start (fun _ _ => []) lastType, 0, 0⟩

variable {σ : Type} (A : FrameAllocator σ) (ram : Mem)

/-- The byte the kernel sees at an address; `none` stands for a page fault. -/
def Heap.shows (h : Heap σ) (virt : Nat) : Option (BitVec 8) :=
  (h.vmm.access h.pml4 (BitVec.ofNat 64 virt)).map fun a =>
    ram (a.frame.toNat + virt % pageSize)

/-- The bytes from `virt` on, as far as they are mapped. -/
def Heap.view (h : Heap σ) (virt : Nat) : Mem := fun i => (h.shows ram (virt + i)).getD 0

/-- Reads `n` bytes. -/
def Heap.reads (h : Heap σ) (virt n : Nat) : Except Fault Unit :=
  if ∀ i < n, (h.shows ram (virt + i)).isSome then .ok () else .error .outOfBounds

def Heap.loadAt (h : Heap σ) (virt n : Nat) : Except Fault Nat := do
  h.reads ram virt n
  .ok (load (h.view ram virt) 0 n)

/-- The loop of `memcmp`, `n` turns from index `i` on, which stops at the first difference. -/
def Heap.memcmpAt (h : Heap σ) (virt : Nat) (s : Nat → BitVec 8) (i : Nat) :
    Nat → Except Fault Int
  | 0 => .ok 0
  | n + 1 =>
    match h.shows ram (virt + i) with
    | none => .error .outOfBounds
    | some b => if b ≠ s i then .ok (if b < s i then -1 else 1) else h.memcmpAt virt s (i + 1) n

/-- The bytes from `virt` on as far as they are mapped, `n` at most. -/
def Heap.bytesFrom (h : Heap σ) (virt : Nat) : Nat → List (BitVec 8)
  | 0 => []
  | n + 1 =>
    match h.shows ram virt with
    | none => []
    | some b => b :: h.bytesFrom (virt + 1) n

/-- `map_page(kernel_pagemap, phys + HIGHER_HALF, phys, flags)`. -/
def Heap.mapDirect (higherHalf : Nat) (h : Heap σ) (phys : Nat) (flags : BitVec 64) :
    Except Fault (Bool × Heap σ) := do
  let (r, vmm) ← mapPage A h.vmm h.pml4 (BitVec.ofNat 64 (phys + higherHalf))
    (BitVec.ofNat 64 phys) flags
  .ok (r, { h with vmm := vmm })

def acpiFlags : BitVec 64 := pteNx ||| ptePcd

/-- A response without an address counts as none. -/
def getRsdp (rsdp : Option Nat) : Option Nat :=
  match rsdp with
  | some address => if address ≠ 0 then some address else none
  | none => none

/-- The text at a `char *`. -/
def charText (l : List (BitVec 8)) : String :=
  String.ofList ((l.takeWhile (· ≠ 0)).map fun b => Char.ofNat b.toNat)

/-- `sprintf` to the block at `buf` and the `panic` with its text. Nobody looks whether `buf` is
`NULL`: `sprintf` reads its arguments all the same, and `panic` reads through it. -/
def sprintfPanic (now : Heap σ) (buf size : Nat) (format : String) (va : List Printf.Arg) :
    Except Fault α := do
  let block := if buf = 0 then none else some (readBytes now.bytes buf size)
  let (text, _) ← Printf.sprintf block (Printf.stringLiteral format) va
  match text with
  | none => .error .outOfBounds
  | some text => .error (.panic (charText text))

/-- What stands behind a failed comparison; the arguments are read after `kmalloc`. -/
def signaturePanic (h : Heap σ) (size : Nat) (format : String)
    (va : Heap σ → List Printf.Arg) : Except Fault α := do
  let (buf, now) ← kmalloc A h size
  sprintfPanic now buf size format (va now)

/-- `sprintf` reads one byte behind the four of the signature if none of them is zero. -/
def checkHeaderSignature (h : Heap σ) (header : Nat) (expected : String) :
    Except Fault Unit := do
  let r ← h.memcmpAt ram header (cString expected) 0 4
  if r ≠ 0 then
    signaturePanic A h ("Expected signature of '', got ''!".length + 1 + 4 + 4)
      "Expected signature of '%.4s', got '%.4s'!" fun now =>
        [⟨BitVec.ofNat 64 header, now.bytesFrom ram header 5⟩, .ofString expected]
  else .ok ()

/-- `checksum_header` of the table at `header`. -/
def checksumAt (h : Heap σ) (header : Nat) : Except Fault Unit := do
  h.reads ram (header + 4) 4
  h.reads ram header (sdtLength (h.view ram header))
  checksumHeader (h.view ram header)

/-- The loop of `find_table`, `n` turns from entry `i` on. It does not look at the result of
`map_page`. -/
def findEntry (higherHalf rootSdt : Nat) (signature : String) (i : Nat) :
    Nat → Heap σ → Except Fault (Nat × Heap σ)
  | 0, h => .ok (0, h)
  | n + 1, h => do
    let phys ← h.loadAt ram (rootSdt + 36 + i * 4) 4
    let vert := u64 (phys + higherHalf)
    let (_, h) ← h.mapDirect A higherHalf phys acpiFlags
    let r ← h.memcmpAt ram vert (cString signature) 0 4
    if r = 0 then .ok (vert, h) else findEntry higherHalf rootSdt signature (i + 1) n h

/-- The pointer to the table found, or `NULL`. -/
def findTable (higherHalf : Nat) (h : Heap σ) (rootSdt : Nat) (signature : String) :
    Except Fault (Nat × Heap σ) := do
  let length ← h.loadAt ram (rootSdt + 4) 4
  findEntry A ram higherHalf rootSdt signature 0 (sub64 length 36 / 4 % 2 ^ 32) h

/-- The order in which `parse_madt` allocates its arrays. -/
def madtArrays : List MadtArray :=
  [.localApics, .ioApics, .ioApicSourceOverrides, .ioApicNmiSources, .ioApicNmis,
    .localApicAddressOverrides, .localX2apics]

/-- The calls of `kmalloc` at the start of `parse_madt`. -/
def allocArrays (header : Nat) :
    List MadtArray → (MadtArray → Nat) → Heap σ → Except Fault ((MadtArray → Nat) × Heap σ)
  | [], arrays, h => .ok (arrays, h)
  | a :: rest, arrays, h => do
    let length ← h.loadAt ram (header + 4) 4
    let (p, h) ← kmalloc A h length
    allocArrays header rest (Function.update arrays a p) h

/-- What an array holds before its entries are stored. -/
def oldEntries (bytes : Mem) (arrays : MadtArray → Nat) (a : MadtArray) (i : Nat) :
    List (BitVec 8) := readBytes bytes (arrays a + i * a.size) a.size

/-- The record loop can make this access: the table is mapped there, and the array is not
`NULL`. The strings of the types are for a message only. -/
def Heap.Allows (h : Heap σ) (header : Nat) (arrays : MadtArray → Nat) : MadtAccess → Prop
  | .header offset => ∀ i < 2, (h.shows ram (header + offset + i)).isSome
  | .payload offset array => ∀ i < array.size, (h.shows ram (header + offset + 2 + i)).isSome
  | .store array _ => arrays array ≠ 0
  | .typeString _ => True

instance (h : Heap σ) (header : Nat) (arrays : MadtArray → Nat) (a : MadtAccess) :
    Decidable (h.Allows ram header arrays a) := by
  cases a with
  | header offset => exact inferInstanceAs (Decidable (∀ i < 2, _))
  | payload offset array => exact inferInstanceAs (Decidable (∀ i < array.size, _))
  | store array index => exact inferInstanceAs (Decidable (_ ≠ 0))
  | typeString type => exact inferInstanceAs (Decidable True)

/-- `parse_madt` of the table at `header`. -/
def parseMadtAt (lastType : BitVec 8) (h : Heap σ) (header : Nat) :
    Except Fault (Madt × Heap σ) := do
  let (arrays, h) ← allocArrays A ram header madtArrays (fun _ => 0) h
  h.reads ram (header + 0x24) 8
  let t := h.view ram header
  let w := Madt.start (oldEntries h.bytes arrays) lastType
  if madtFlags t ≠ 0 ∧
      ¬∀ a ∈ (madtLoop t (sdtLength t) w).accesses, h.Allows ram header arrays a then
    .error .outOfBounds
  else do
    let w ← parseMadt t w
    .ok (w, h)

/-- The FACS pointer among the fields of the FADT at `fadt`. -/
def facsPointer (h : Heap σ) (fadt : Nat) : Except Fault Nat := do
  let _ ← h.loadAt ram (fadt + 48) 4
  let firmwareCtrl ← h.loadAt ram (fadt + 36) 4
  if firmwareCtrl ≠ 0 then .ok firmwareCtrl
  else
    let xFirmwareControl ← h.loadAt ram (fadt + 132) 8
    if xFirmwareControl ≠ 0 then .ok xFirmwareControl
    else .error (.panic
      "Something went horribly wrong parsing FADT, FACS pointer was NULL!")

/-- `bootstrap_acpi` from the mapping of the RSDT at `phys` on. -/
def parseRsdt (higherHalf : Nat) (lastType : BitVec 8) (h : Heap σ) (phys : Nat) :
    Except Fault (AcpiVars × Heap σ) := do
  let rsdtHeader := u64 (phys + higherHalf)
  let (mapped, h) ← h.mapDirect A higherHalf phys acpiFlags
  if mapped = false then .error (.panic "Could not map RSDT!")
  else
    checkHeaderSignature A ram h rsdtHeader "RSDT"
    checksumAt ram h rsdtHeader
    let (madtHeader, h) ← findTable A ram higherHalf h rsdtHeader "APIC"
    if madtHeader = 0 then .error (.panic "Could not find LAPIC (MADT) table!")
    else
      checksumAt ram h madtHeader
      let (madt, h) ← parseMadtAt A ram lastType h madtHeader
      let (fadtHeader, h) ← findTable A ram higherHalf h rsdtHeader "FACP"
      if fadtHeader = 0 then .error (.panic "Could not find FADT table!")
      else
        checksumAt ram h fadtHeader
        let facsPtr ← facsPointer ram h fadtHeader
        let _ ← h.loadAt ram (fadtHeader + 40) 4
        .ok (⟨madt, fadtHeader, facsPtr⟩, h)

/-- The checks of the RSDP, copied to the stack from `virt`. A revision other than 0 gives a
warning only (`AcpiRun.checkRsdp`). -/
def checkRsdp (h : Heap σ) (virt : Nat) : Except Fault Nat := do
  h.reads ram virt 20
  let rsdpH := h.view ram virt
  if memcmp rsdpH (cString "RSD PTR ") 7 ≠ 0 then
    signaturePanic A h ("Expected RSDP signature of 'RSD PTR ', got ''!".length + 1 + 8)
      "Expected RSDP signature of 'RSD PTR ', got '%.8s'!" fun _ => [⟨0, readBytes rsdpH 0 20⟩]
  else if (List.range 20).foldl (fun sum i => sum + (rsdpH i).toNat) 0 % 2 ^ 32 &&& 0xff ≠ 0 then
    .error (.panic "Bad RSDP header checksum!")
  else .ok (load rsdpH 16 4)

/-- Without a response there is an access through `NULL`; without a page for the RSDP the tables
stay as they are. -/
def bootstrapAcpi (higherHalf : Nat) (pl : Platform) (h : Heap σ) :
    Except Fault (AcpiVars × Heap σ) :=
  match getRsdp pl.rsdp with
  | none => .error .outOfBounds
  | some phys => do
    let (mapped, h) ← h.mapDirect A higherHalf phys acpiFlags
    if mapped = false then .ok (.initial pl.lastType, h)
    else
      let rsdtAddress ← checkRsdp A pl.ram h (u64 (phys + higherHalf))
      parseRsdt A pl.ram higherHalf pl.lastType h rsdtAddress

end AdaOS
