import AdaOS.ByteMem
import AdaOS.Vmm

namespace AdaOS
set_option autoImplicit true
open ByteMem

/-- The static variables of `heap.c`, the page tables below it, and the memory the heap's virtual
addresses show. Null pointers are 0. -/
structure Heap (σ : Type) where
  vmm : Vmm σ
  pml4 : BitVec 64
  bytes : Mem
  heapStart : Nat
  heapSize : Nat
  freeListHead : Nat

def minAllocSize : Nat := 16

def heapAlignment : Nat := 16

def alignUpHeap (size : Nat) : Nat := alignUp size heapAlignment

/-- `ALIGN_UP_HEAP(sizeof(size_t))`. -/
def headerSize : Nat := alignUpHeap 8

variable {σ : Type} (A : FrameAllocator σ)

/-- `block->size`, also the header of a block in use. -/
def Heap.sizeAt (h : Heap σ) (block : Nat) : Nat := word h.bytes block

/-- `block->next`. -/
def Heap.nextAt (h : Heap σ) (block : Nat) : Nat := word h.bytes (block + 8)

def Heap.setSize (h : Heap σ) (block size : Nat) : Heap σ :=
  { h with bytes := setWord h.bytes block size }

def Heap.setNext (h : Heap σ) (block next : Nat) : Heap σ :=
  { h with bytes := setWord h.bytes (block + 8) next }

/-- A walk over more free blocks than the heap has room for goes round in circles. -/
def Heap.walkFuel (h : Heap σ) : Nat := h.heapSize / minAllocSize + 1

/-- The search for the last free block below `block`, which is `NULL` when there is none. -/
def findPlace (h : Heap σ) (block : Nat) : Nat → Nat → Nat → Except Fault Nat
  | 0, _, _ => .error .diverges
  | fuel + 1, prev, current =>
    if current ≠ 0 ∧ current < block then findPlace h block fuel current (h.nextAt current)
    else .ok prev

/-- The linking of a block behind `prev`, as `kfree` and `heap_grow_pages` both do it. -/
def insertBlock (h : Heap σ) (prev block : Nat) : Heap σ :=
  if prev = 0 then { h.setNext block h.freeListHead with freeListHead := block }
  else (h.setNext block (h.nextAt prev)).setNext prev block

/-- The merge of a block with the one after it. -/
def mergeNext (h : Heap σ) (block : Nat) : Heap σ :=
  if h.nextAt block ≠ 0 ∧ u64 (block + h.sizeAt block) = h.nextAt block then
    let h := h.setSize block (u64 (h.sizeAt block + h.sizeAt (h.nextAt block)))
    h.setNext block (h.nextAt (h.nextAt block))
  else h

/-- The merge of a block with the one before it. -/
def mergePrev (h : Heap σ) (prev block : Nat) : Heap σ :=
  if prev ≠ 0 ∧ u64 (prev + h.sizeAt prev) = block then
    let h := h.setSize prev (u64 (h.sizeAt prev + h.sizeAt block))
    h.setNext prev (h.nextAt block)
  else h

def linkBlock (h : Heap σ) (prev block : Nat) : Heap σ :=
  mergePrev (mergeNext (insertBlock h prev block) block) prev block

/-- The page loop of `heap_grow_pages`, `n` turns from `virt` on. A page mapped there shows a
frame that `pp_alloc` has cleared. -/
def growLoop : Nat → Nat → Heap σ → Except Fault (Bool × Heap σ)
  | _, 0, h => .ok (true, h)
  | virt, n + 1, h => do
    match ← h.vmm.ppAlloc A with
    | (none, vmm) => .ok (false, { h with vmm := vmm })
    | (some f, vmm) =>
      match ← mapPage A vmm h.pml4 (BitVec.ofNat 64 virt) f.addr
          (ptePresent ||| pteWritable ||| pteNx) with
      | (true, vmm) =>
        growLoop (virt + pageSize) n
          { h with vmm := vmm, bytes := fill h.bytes (u64 virt / pageSize * pageSize) pageSize }
      | (false, _) => .error (.panic "heap_expand_pages: vmm_map_page failed")

/-- What `heap_grow_pages` does with the region it has mapped. -/
def addRegion (h : Heap σ) (base newRegionSize : Nat) : Except Fault (Heap σ) :=
  let h := (h.setSize base newRegionSize).setNext base 0
  if h.freeListHead = 0 then .ok { h with freeListHead := base }
  else do
    let prev ← findPlace h base h.walkFuel 0 h.freeListHead
    .ok (linkBlock h prev base)

def heapGrowPages (h : Heap σ) (pages : Nat) : Except Fault (Bool × Heap σ) :=
  if pages = 0 then .ok (false, h)
  else do
    let base := u64 (h.heapStart + h.heapSize)
    let newRegionSize := u64 (pages * pageSize)
    match ← growLoop A base pages h with
    | (false, h) => .ok (false, h)
    | (true, h) => do
      let h ← addRegion h base newRegionSize
      .ok (true, { h with heapSize := u64 (h.heapSize + newRegionSize) })

/-- The first-fit search of `kmalloc`: the block found and the one before it. -/
def findFit (h : Heap σ) (total : Nat) : Nat → Nat → Nat → Except Fault (Option (Nat × Nat))
  | 0, _, _ => .error .diverges
  | fuel + 1, prev, current =>
    if current = 0 then .ok none
    else if h.sizeAt current ≥ total then .ok (some (prev, current))
    else findFit h total fuel current (h.nextAt current)

/-- Makes `next` the block after `prev`, or the head of the list. -/
def setLink (h : Heap σ) (prev next : Nat) : Heap σ :=
  if prev = 0 then { h with freeListHead := next } else h.setNext prev next

/-- What `kmalloc` does with the block found: it splits it or takes it whole. -/
def takeBlock (h : Heap σ) (total prev current : Nat) : Heap σ :=
  let h :=
    if h.sizeAt current ≥ u64 (total + minAllocSize) then
      let newBlock := u64 (current + total)
      let h := h.setSize newBlock (sub64 (h.sizeAt current) total)
      let h := h.setNext newBlock (h.nextAt current)
      let h := h.setSize current total
      setLink h prev newBlock
    else setLink h prev (h.nextAt current)
  h.setSize current (h.sizeAt current)

/-- The retries of `kmalloc`, one for each time the heap grows. -/
def kmallocLoop (total : Nat) : Nat → Heap σ → Except Fault (Nat × Heap σ)
  | 0, _ => .error .diverges
  | fuel + 1, h => do
    match ← findFit h total h.walkFuel 0 h.freeListHead with
    | some (prev, current) =>
      .ok (u64 (current + headerSize), takeBlock h total prev current)
    | none =>
      match ← heapGrowPages A h 16 with
      | (true, h) => kmallocLoop total fuel h
      | (false, h) =>
        match ← heapGrowPages A h 1 with
        | (true, h) => kmallocLoop total fuel h
        | (false, h) => .ok (0, h)

/-- The bytes `kmalloc` takes for a request, the header included. -/
def totalSize (size : Nat) : Nat :=
  let total := u64 (alignUpHeap size + headerSize)
  if total < minAllocSize then minAllocSize else total

/-- A heap that grows more often than there are pages in all has some page twice. -/
def kmalloc (h : Heap σ) (size : Nat) : Except Fault (Nat × Heap σ) :=
  if size = 0 then .ok (0, h) else kmallocLoop A (totalSize size) (maxPages + 1) h

def kfree (h : Heap σ) (ptr : Nat) : Except Fault (Heap σ) :=
  if ptr = 0 then .ok h
  else
    let blockStart := sub64 ptr headerSize
    let blockSize := h.sizeAt blockStart
    if blockStart < h.heapStart ∨ blockStart ≥ u64 (h.heapStart + h.heapSize) then
      .error (.panic "kfree: invalid pointer (out of heap range).")
    else if blockSize < minAllocSize then .error (.panic "kfree: invalid block size.")
    else if blockStart % heapAlignment ≠ 0 then
      .error (.panic "kfree: alignment error. (try calling HEAP_ALIGN_UP(ptr))")
    else do
      let prev ← findPlace h blockStart h.walkFuel 0 h.freeListHead
      .ok (linkBlock (h.setSize blockStart blockSize) prev blockStart)

def kcalloc (h : Heap σ) (num size : Nat) : Except Fault (Nat × Heap σ) :=
  if size ≠ 0 ∧ num > (2 ^ 64 - 1) / size then .ok (0, h)
  else do
    let total := u64 (num * size)
    let (p, h) ← kmalloc A h total
    if p = 0 then .ok (0, h) else .ok (p, { h with bytes := fill h.bytes p total })

def krealloc (h : Heap σ) (ptr newSize : Nat) : Except Fault (Nat × Heap σ) :=
  if ptr = 0 then kmalloc A h newSize
  else if newSize = 0 then do
    let h ← kfree h ptr
    .ok (0, h)
  else
    let oldTotal := h.sizeAt (sub64 ptr headerSize)
    let oldPayload := if oldTotal ≥ headerSize then sub64 oldTotal headerSize else 0
    if newSize ≤ oldPayload then .ok (ptr, h)
    else do
      let (newPtr, h) ← kmalloc A h newSize
      if newPtr = 0 then .ok (0, h)
      else
        let h ← kfree { h with bytes := copy h.bytes newPtr ptr oldPayload } ptr
        .ok (newPtr, h)

/-- The heap's variables before `setup_heap` runs. -/
def Heap.initial (vmm : Vmm σ) (pml4 : BitVec 64) (bytes : Mem) : Heap σ :=
  ⟨vmm, pml4, bytes, 0, 0, 0⟩

def setupHeap (higherHalf : Nat) (h : Heap σ) : Except Fault (Heap σ) := do
  let h := { h with heapStart := u64 (higherHalf + 0x10000000000), heapSize := 0 }
  match ← heapGrowPages A h 256 with
  | (false, _) => .error (.panic "setup_heap: failed to allocate initial kernel heap!")
  | (true, h) =>
    let h := { h with freeListHead := h.heapStart }
    .ok ((h.setSize h.heapStart h.heapSize).setNext h.heapStart 0)

end AdaOS
