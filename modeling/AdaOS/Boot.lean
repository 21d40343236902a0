import AdaOS.IoApic

namespace AdaOS
set_option autoImplicit true
open ByteMem

structure LocalApic where
  bootstrapProcessor : Bool
  x2ApicEnabled : Bool
  apicEnabled : Bool
  apicAddress : Nat
  deriving DecidableEq, Repr

/-- Reads the model-specific register `IA32_APIC_BASE_MSR`. -/
def getApic (data : BitVec 64) : Except Fault LocalApic :=
  let apic : LocalApic := {
    bootstrapProcessor := data.getLsbD 8
    x2ApicEnabled := data.getLsbD 10
    apicEnabled := data.getLsbD 11
    apicAddress := (data &&& ~~~0xFFF).toNat }
  if apic.apicEnabled = false ∧ apic.x2ApicEnabled = true then
    .error (.panic "x2APIC currently unsupported")
  else if apic.apicEnabled = false then .error (.panic "APIC not enabled")
  else .ok apic

variable {σ : Type} (A : FrameAllocator σ)

def apicFlags : BitVec 64 := pteWritable ||| pteNx ||| ptePcd

/-- `bootstrap_apic` up to the start of the timer. -/
def bootstrapApic (higherHalf : Nat) (pl : Platform) (h : Heap σ) : Except Fault (Heap σ) := do
  let apic ← getApic pl.apicBase
  let (mapped, h) ← h.mapDirect A higherHalf apic.apicAddress apicFlags
  if mapped = false then .error (.panic "Could not map APIC to virtual memory!")
  else if pl.apicVersion < 0x10 then
    .error (.panic "82489DX (APIC versions under 0x10) are unsupported.")
  else if pl.apicSpurious ≠ 0x1F0 then .error (.panic "Could not enable APIC!")
  else .ok h

/-- What the boot leaves: the variables of `acpi.c`, the calls that write redirection entries,
and the kernel's memory. -/
structure Booted (σ : Type) where
  acpi : AcpiVars
  redirections : List RedirectionWrite
  heap : Heap σ

/-- `kmain` from `setup_vmm` on, with its test of the heap. -/
def boot (k : KernelLayout) (pl : Platform) (stack : RedirectionEntry) (v : Vmm σ)
    (bytes : Mem) : Except Fault (Booted σ) := do
  let (root, v) ← setupVmm A k v
  let h ← setupHeap A k.higherHalf (Heap.initial v root bytes)
  let (p, h) ← kmalloc A h 6144
  let h ← kfree h p
  let h ← bootstrapApic A k.higherHalf pl h
  let (acpi, h) ← bootstrapAcpi A k.higherHalf pl h
  let (redirections, h) ← setupIoApic A k.higherHalf pl stack acpi.madt h
  .ok ⟨acpi, redirections, h⟩

end AdaOS
