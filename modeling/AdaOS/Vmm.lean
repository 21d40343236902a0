import AdaOS.Memmap
import AdaOS.Frames

namespace AdaOS
set_option autoImplicit true

/-- A call of the physical allocator made for the page tables. -/
inductive PageEvent where
  | taken (frame : BitVec 64)
  | refused
  | given (frame : BitVec 64)
  deriving DecidableEq, Repr

/-- Physical memory as tables of 512 entries, the allocator, and the calls made to it, newest
first. A pointer to a table is the table's physical address here: the direct map adds the offset
of the higher half to it, which leaves non-null pointers non-null. -/
structure Vmm (σ : Type) where
  mem : BitVec 64 → Fin 512 → BitVec 64
  frames : σ
  trace : List PageEvent

variable (A : FrameAllocator σ)

/-- `memset(table, 0, PAGE_SIZE)`. -/
def Vmm.clear (v : Vmm σ) (table : BitVec 64) : Vmm σ :=
  { v with mem := Function.update v.mem table fun _ => 0 }

def Vmm.write (v : Vmm σ) (table : BitVec 64) (index : Fin 512) (entry : BitVec 64) : Vmm σ :=
  { v with mem := Function.update v.mem table (Function.update (v.mem table) index entry) }

/-- `pp_alloc`, which clears the page it returns. -/
def Vmm.ppAlloc (v : Vmm σ) : Except Fault (Option Frame × Vmm σ) := do
  match ← A.alloc v.frames with
  | (some f, s) =>
    .ok (some f, Vmm.clear { v with frames := s, trace := .taken f.addr :: v.trace } f.addr)
  | (none, s) => .ok (none, { v with frames := s, trace := .refused :: v.trace })

def Vmm.ppFree (v : Vmm σ) (addr : BitVec 64) : Vmm σ :=
  { v with frames := A.free v.frames addr, trace := .given addr :: v.trace }

def isTableEmpty (v : Vmm σ) (table : BitVec 64) : Bool :=
  decide (∀ i, v.mem table i = 0)

def getNextLevel (v : Vmm σ) (level : BitVec 64) (index : Fin 512) : Option (BitVec 64) :=
  if hasFlag (v.mem level index) ptePresent then some (pteGetAddr (v.mem level index)) else none

def allocateNextLevel (v : Vmm σ) (level : BitVec 64) (index : Fin 512) (flags : BitVec 64) :
    Except Fault (Option (BitVec 64) × Vmm σ) := do
  match ← v.ppAlloc A with
  | (none, v) => .ok (none, v)
  | (some f, v) =>
    let newEntryFlags := if flags ≠ 0 then flags else ptePresent ||| pteWritable
    .ok (some f.addr, (v.write level index (f.addr ||| newEntryFlags)).clear f.addr)

def getOrAllocateNextLevel (v : Vmm σ) (level : BitVec 64) (index : Fin 512)
    (flags : BitVec 64) : Except Fault (Option (BitVec 64) × Vmm σ) :=
  if hasFlag (v.mem level index) ptePresent then
    .ok (some (pteGetAddr (v.mem level index)), v)
  else allocateNextLevel A v level index flags

/-- The `alloc_flags` of `map_page`. -/
def tableFlags (flags : BitVec 64) : BitVec 64 :=
  if hasFlag flags pteUser then ptePresent ||| pteWritable ||| pteUser
  else ptePresent ||| pteWritable

def mapPage (v : Vmm σ) (pml4 virt phys flags : BitVec 64) : Except Fault (Bool × Vmm σ) := do
  let virt := pageBase virt
  let phys := pageBase phys
  match ← getOrAllocateNextLevel A v pml4 (pml4Index virt) (tableFlags flags) with
  | (none, v) => .ok (false, v)
  | (some pdpt, v) =>
    match ← getOrAllocateNextLevel A v pdpt (pdptIndex virt) (tableFlags flags) with
    | (none, v) => .ok (false, v)
    | (some pd, v) =>
      match ← getOrAllocateNextLevel A v pd (pdIndex virt) (tableFlags flags) with
      | (none, v) => .ok (false, v)
      | (some pt, v) => .ok (true, v.write pt (ptIndex virt) (phys ||| flags ||| ptePresent))

/-- The part of `unmap_page` that gives back the tables the cleared entry leaves empty. -/
def freeEmptyTables (v : Vmm σ) (pml4 pdpt pd pt virt : BitVec 64) : Vmm σ :=
  let pdptEntry := v.mem pml4 (pml4Index virt)
  let pdEntry := v.mem pdpt (pdptIndex virt)
  let ptEntry := v.mem pd (pdIndex virt)
  let v := v.write pt (ptIndex virt) 0
  if isTableEmpty v pt then
    let v := (v.write pd (pdIndex virt) 0).ppFree A (pteGetAddr ptEntry)
    if isTableEmpty v pd then
      let v := (v.write pdpt (pdptIndex virt) 0).ppFree A (pteGetAddr pdEntry)
      if isTableEmpty v pdpt then
        if (pml4Index virt).val ≥ 256 then v
        else (v.write pml4 (pml4Index virt) 0).ppFree A (pteGetAddr pdptEntry)
      else v
    else v
  else v

def unmapPage (v : Vmm σ) (pml4 virt : BitVec 64) : Bool × Vmm σ :=
  if virt.toNat % pageSize ≠ 0 then (false, v)
  else
    match getNextLevel v pml4 (pml4Index virt) with
    | none => (true, v)
    | some pdpt =>
      match getNextLevel v pdpt (pdptIndex virt) with
      | none => (true, v)
      | some pd =>
        match getNextLevel v pd (pdIndex virt) with
        | none => (true, v)
        | some pt =>
          if hasFlag (v.mem pt (ptIndex virt)) ptePresent then
            (true, freeEmptyTables A v pml4 pdpt pd pt virt)
          else (true, v)

/-- The addresses `setup_vmm` reads: linker symbols, the bootloader's responses, the memory
descriptor and the framebuffer. -/
structure KernelLayout where
  textStart : Nat
  textEnd : Nat
  rodataStart : Nat
  rodataEnd : Nat
  dataStart : Nat
  dataEnd : Nat
  bssEnd : Nat
  virtualBase : Nat
  physicalBase : Nat
  higherHalf : Nat
  desc : MemoryDescriptor
  fbPitch : Nat
  fbHeight : Nat
  fbAddress : Nat

/-- The flags of the kernel page that starts at `virt`. -/
def KernelLayout.imageFlags (k : KernelLayout) (virt : Nat) : BitVec 64 :=
  if virt ≥ k.textStart ∧ virt < k.textEnd then ptePresent
  else if virt ≥ k.rodataStart ∧ virt < k.rodataEnd then ptePresent ||| pteNx
  else if virt ≥ k.dataStart ∧ virt < k.dataEnd then ptePresent ||| (pteWritable ||| pteNx)
  else ptePresent ||| (pteWritable ||| pteNx)

/-- The turns of a loop from `start` below `stop` in steps of a page. The bound of each such
loop is a multiple of the page size, so the counter does not wrap around. -/
def pagesBetween (start stop : Nat) : Nat := (stop - start + (pageSize - 1)) / pageSize

/-- Hangs a table into each of these entries of the top level. -/
def preallocate (pml4 : BitVec 64) : List (Fin 512) → Vmm σ → Except Fault (Vmm σ)
  | [], v => .ok v
  | i :: is, v => do
    let (_, v) ← getOrAllocateNextLevel A v pml4 i 0
    preallocate pml4 is v

def upperHalf : List (Fin 512) := (List.finRange 512).filter (256 ≤ ·.val)

/-- The first part of `setup_vmm`: a page for the top level and the tables of the higher half. -/
def setupPml4 (v : Vmm σ) : Except Fault (BitVec 64 × Vmm σ) := do
  match ← v.ppAlloc A with
  | (none, _) => .error (.panic "Failed to allocate kernel PML4 table page.")
  | (some f, v) =>
    let v ← preallocate A f.addr upperHalf (v.clear f.addr)
    .ok (f.addr, v)

/-- A loop of `setup_vmm` over pages, `n` turns from `addr` on. `page` gives the arguments of
`map_page`, whose failure is a panic. -/
def mapPages (pml4 : BitVec 64) (page : Nat → BitVec 64 × BitVec 64 × BitVec 64)
    (msg : String) : Nat → Nat → Vmm σ → Except Fault (Vmm σ)
  | _, 0, v => .ok v
  | addr, n + 1, v => do
    let (virt, phys, flags) := page addr
    match ← mapPage A v pml4 virt phys flags with
    | (true, v) => mapPages pml4 page msg (addr + pageSize) n v
    | (false, _) => .error (.panic msg)

/-- The arguments of `map_page` in the kernel-image loop, at `p_virt`. -/
def KernelLayout.imagePage (k : KernelLayout) (virt : Nat) : BitVec 64 × BitVec 64 × BitVec 64 :=
  (BitVec.ofNat 64 virt, BitVec.ofNat 64 (sub64 virt k.virtualBase + k.physicalBase),
    k.imageFlags virt)

/-- The arguments of `map_page` in the HHDM loop, at `p`. -/
def KernelLayout.hhdmPage (k : KernelLayout) (phys : Nat) : BitVec 64 × BitVec 64 × BitVec 64 :=
  (BitVec.ofNat 64 (phys + k.higherHalf), BitVec.ofNat 64 phys, ptePresent ||| pteWritable)

def mapImage (k : KernelLayout) (pml4 : BitVec 64) (v : Vmm σ) : Except Fault (Vmm σ) :=
  mapPages A pml4 k.imagePage "Failed to map kernel page." k.virtualBase
    (pagesBetween k.virtualBase (alignUp k.bssEnd pageSize)) v

def mapChunks (k : KernelLayout) (pml4 : BitVec 64) : List Chunk → Vmm σ → Except Fault (Vmm σ)
  | [], v => .ok v
  | c :: cs, v => do
    let mapBase := alignUp c.base pageSize
    let mapTop := alignUp c.bounds pageSize
    if mapTop ≤ mapBase then mapChunks k pml4 cs v
    else
      let v ← mapPages A pml4 k.hhdmPage "Failed to map HHDM page." mapBase
        (pagesBetween mapBase mapTop) v
      mapChunks k pml4 cs v

/-- The framebuffer loop, which does not look at the result of `map_page`. -/
def mapFramebuffer (pml4 : BitVec 64) : Nat → Nat → Nat → Vmm σ → Except Fault (Vmm σ)
  | _, _, 0, v => .ok v
  | virt, phys, n + 1, v => do
    let (_, v) ← mapPage A v pml4 (BitVec.ofNat 64 virt) (BitVec.ofNat 64 phys)
      (ptePresent ||| pteWritable ||| ptePcd ||| ptePat)
    mapFramebuffer pml4 (virt + pageSize) (phys + pageSize) n v

/-- The number of pages of the framebuffer; `total_bytes` has 32 bits. -/
def KernelLayout.fbPages (k : KernelLayout) : Nat :=
  (k.fbPitch * k.fbHeight % 2 ^ 32 + pageSize - 1) % 2 ^ 32 / pageSize

/-- `setup_vmm` up to the end of the HHDM loop. -/
def mapKernel (k : KernelLayout) (v : Vmm σ) : Except Fault (BitVec 64 × Vmm σ) := do
  let (pml4, v) ← setupPml4 A v
  let v ← mapImage A k pml4 v
  let v ← mapChunks A k pml4 (k.desc.chunkPtr.take k.desc.chunkCount) v
  .ok (pml4, v)

/-- Returns the physical address of the top level, which goes into `cr3`. -/
def setupVmm (k : KernelLayout) (v : Vmm σ) : Except Fault (BitVec 64 × Vmm σ) := do
  let (pml4, v) ← mapKernel A k v
  let v ← mapFramebuffer A pml4 k.fbAddress (sub64 k.fbAddress k.higherHalf) k.fbPages v
  .ok (pml4, v)

end AdaOS
