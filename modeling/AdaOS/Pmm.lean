import AdaOS.Memmap

namespace AdaOS
set_option autoImplicit true

/-- `MAX_PAGES`, written `1024 * 1024` in the source. -/
def maxPages : Nat := 1024 * 1024

def maxSegments : Nat := 32

structure PageMapping where
  offset : Nat
  pageStartIndex : Nat
  pageEndIndex : Nat
  deriving DecidableEq, Repr

def PageMapping.zero : PageMapping := ⟨0, 0, 0⟩

/-- The bootloader's responses the physical allocator reads, and the linker's address of
`page_bitmap`. The getters panic when a response is missing, before the allocator exists. -/
structure BootInfo where
  memmap : List MemmapEntry
  physicalBase : Nat
  virtualBase : Nat
  executableFileSize : Nat
  pageBitmap : Nat
  deriving Repr

/-- The static variables of `pmm.c`, with the physical memory the allocator clears. The bitmap
is given bit by bit, a set bit meaning used, and `pageMappings` lists the slots filled in; the
other slots of the table are zero. -/
structure Pmm where
  pageBitmap : Nat → Bool
  pageMappings : List PageMapping
  lastUsedMapping : Nat
  lastPageUsed : Nat
  freePages : BitVec 64
  usedPages : BitVec 64
  desc : MemoryDescriptor
  ram : Nat → BitVec 8

def getUsedMemory (s : Pmm) : BitVec 64 := s.usedPages * BitVec.ofNat 64 pageSize

def getFreeMemory (s : Pmm) : BitVec 64 := s.freePages * BitVec.ofNat 64 pageSize

def pageFree (s : Pmm) (pageIndex : Nat) : Except Fault Bool :=
  if pageIndex / 8 < maxPages / 8 then .ok (!s.pageBitmap pageIndex) else .error .outOfBounds

/-- `set_page(page_index, FREE)`. -/
def setFree (s : Pmm) (pageIndex : Nat) : Except Fault Pmm :=
  if pageIndex / 8 < maxPages / 8 then
    .ok { s with
      pageBitmap := Function.update s.pageBitmap pageIndex false
      freePages := s.freePages + 1
      usedPages := s.usedPages - 1 }
  else .error .outOfBounds

/-- `set_page(page_index, USED)`. -/
def setUsed (s : Pmm) (pageIndex : Nat) : Except Fault Pmm :=
  if pageIndex / 8 < maxPages / 8 then
    .ok { s with
      pageBitmap := Function.update s.pageBitmap pageIndex true
      lastPageUsed := pageIndex
      freePages := s.freePages - 1
      usedPages := s.usedPages + 1 }
  else .error .outOfBounds

/-- The search for a clear bit at the indices `i`, `i + 1`, ..., `n` of them. -/
def scanFree (s : Pmm) : Nat → Nat → Except Fault (Option Nat)
  | _, 0 => .ok none
  | i, n + 1 => do
    if ← pageFree s i then .ok (some i) else scanFree s (i + 1) n

/-- The cursor `get_free_page` starts from, after its two resets. -/
def startPage (b : BootInfo) (s : Pmm) : Nat :=
  let last := if s.lastPageUsed ≥ b.physicalBase / pageSize then 1 else s.lastPageUsed
  if last ≥ maxPages then 1 else last

def getFreePage (b : BootInfo) (s : Pmm) : Except Fault (Nat × Pmm) := do
  let last := startPage b s + 1
  if ← pageFree s last then .ok (last, { s with lastPageUsed := last })
  else
    match ← scanFree s 1 maxPages with
    | some i => .ok (i, { s with lastPageUsed := i })
    | none => .error (.panic "Out of memory.")

/-- The mapping of one chunk when `pagesUsed` indices are taken by the chunks before it. -/
def pageMappingOf (pagesUsed : Nat) (chunk : Chunk) : PageMapping where
  offset := if chunk.base > 0x100000 then chunk.base else 0x100000
  pageStartIndex := pagesUsed
  pageEndIndex := pagesUsed + alignUp (sub64 chunk.bounds chunk.base / pageSize) pageSize

def pagesAfter (pagesUsed : Nat) (chunk : Chunk) : Nat :=
  pagesUsed + (sub64 chunk.bounds chunk.base / pageSize + 1)

def pageMappingsOf : Nat → List Chunk → List PageMapping
  | _, [] => []
  | pagesUsed, chunk :: chunks =>
    pageMappingOf pagesUsed chunk :: pageMappingsOf (pagesAfter pagesUsed chunk) chunks

def generatePageMapping (s : Pmm) : Except Fault Pmm :=
  let chunks := s.desc.chunkPtr.take s.desc.chunkCount
  if chunks.length ≤ maxSegments then
    .ok { s with
      pageMappings := pageMappingsOf 0 chunks
      freePages := BitVec.ofNat 64 (chunks.foldl pagesAfter 0) }
  else .error .outOfBounds

/-- The `retry` loop shared by `ptr_to_page` and `page_to_ptr`: the mapping the search stops at,
if any, and the cursor it leaves behind. -/
def retry (pageMappings : List PageMapping) (chunkCount : Nat) (hit : PageMapping → Bool) :
    Nat → Nat → Bool → Except Fault (Option PageMapping × Nat)
  | 0, _, _ => .error .diverges
  | fuel + 1, cursor, wrapped =>
    if cursor < maxSegments then
      let mapping := pageMappings.getD cursor .zero
      if hit mapping then .ok (some mapping, cursor)
      else if cursor ≤ chunkCount then
        retry pageMappings chunkCount hit fuel (cursor + 1) wrapped
      else if wrapped then .ok (none, cursor)
      else retry pageMappings chunkCount hit fuel 0 true
    else .error .outOfBounds

def searchMappings (s : Pmm) (hit : PageMapping → Bool) :
    Except Fault (Option PageMapping × Nat) :=
  retry s.pageMappings s.desc.chunkCount hit (2 * (s.desc.chunkCount + 2))
    s.lastUsedMapping false

def PageMapping.holdsIndex (m : PageMapping) (pageIndex : Nat) : Bool :=
  m.pageStartIndex < pageIndex && pageIndex < m.pageEndIndex

def PageMapping.segmentSize (m : PageMapping) : Nat :=
  u64 ((m.pageEndIndex - m.pageStartIndex) * pageSize)

def PageMapping.holdsPtr (m : PageMapping) (ptr : Nat) : Bool :=
  m.offset < ptr && ptr < u64 (m.offset + m.segmentSize)

def PageMapping.ptrOf (m : PageMapping) (pageIndex : Nat) : Nat :=
  u64 (m.offset + (pageIndex - m.pageStartIndex) * pageSize)

def PageMapping.indexOf (m : PageMapping) (ptr : Nat) : Nat :=
  m.pageStartIndex + (ptr - m.offset) / pageSize

/-- The error value `-1` of `ptr_to_page`. -/
def noPage : Nat := 2 ^ 64 - 1

/-- A null pointer is 0, for the argument here and for the result of `page_to_ptr`. -/
def ptrToPage (s : Pmm) (ptr : Nat) : Except Fault (Nat × Pmm) :=
  if ptr = 0 then .ok (noPage, s)
  else if ptr % pageSize ≠ 0 then .ok (noPage, s)
  else do
    match ← searchMappings s (·.holdsPtr ptr) with
    | (some m, cursor) => .ok (m.indexOf ptr, { s with lastUsedMapping := cursor })
    | (none, cursor) => .ok (noPage, { s with lastUsedMapping := cursor })

def pageToPtr (s : Pmm) (pageIndex : Nat) : Except Fault (Nat × Pmm) :=
  if pageIndex > maxPages then .ok (0, s)
  else do
    match ← searchMappings s (·.holdsIndex pageIndex) with
    | (some m, cursor) => .ok (m.ptrOf pageIndex, { s with lastUsedMapping := cursor })
    | (none, cursor) => .ok (0, { s with lastUsedMapping := cursor })

/-- `memset(vaddr, 0, PAGE_SIZE)` through the direct map. -/
def clearPage (ram : Nat → BitVec 8) (addr : Nat) : Nat → BitVec 8 :=
  fun a => if addr ≤ a ∧ a < addr + pageSize then 0 else ram a

/-- `_pp_alloc`. -/
def ppAllocIndex (b : BootInfo) (s : Pmm) (pageIndex : Nat) : Except Fault (Nat × Pmm) :=
  if pageIndex ≥ b.physicalBase then .ok (0, s)
  else if pageIndex > maxPages then .ok (0, s)
  else do
    if ← pageFree s pageIndex then
      let s ← setUsed s pageIndex
      let (addr, s) ← pageToPtr s pageIndex
      .ok (addr, { s with ram := clearPage s.ram addr })
    else .ok (0, s)

def ppAlloc (b : BootInfo) (s : Pmm) : Except Fault (Nat × Pmm) := do
  let (index, s) ← getFreePage b s
  ppAllocIndex b s index

/-- `_pp_free`. -/
def ppFreeIndex (s : Pmm) (pageIndex : Nat) : Except Fault Pmm :=
  if pageIndex > maxPages then .ok s
  else do
    if ← pageFree s pageIndex then .ok s else setFree s pageIndex

def ppFree (s : Pmm) (ptr : Nat) : Except Fault Pmm := do
  let (pageIndex, s) ← ptrToPage s ptr
  ppFreeIndex s pageIndex

/-- A reservation loop of `setup_pmm` over the indices `i`, `i + 1`, ..., `n` of them. -/
def reservePages (s : Pmm) : Nat → Nat → Except Fault Pmm
  | _, 0 => .ok s
  | i, n + 1 => do
    if i ≤ maxPages then
      let free ← pageFree s i
      let s := if free then s else { s with freePages := s.freePages - 1 }
      let s ← setUsed s i
      reservePages s (i + 1) n
    else reservePages s (i + 1) n

def BootInfo.kernelFirstPage (b : BootInfo) : Nat := b.physicalBase / pageSize

def BootInfo.kernelLastPage (b : BootInfo) : Nat :=
  u64 (b.physicalBase + alignUp b.executableFileSize pageSize) / pageSize

def BootInfo.bitmapPhysStart (b : BootInfo) : Nat :=
  u64 (sub64 b.pageBitmap b.virtualBase + b.physicalBase)

def BootInfo.bitmapFirstPage (b : BootInfo) : Nat := b.bitmapPhysStart / pageSize

def BootInfo.bitmapLastPage (b : BootInfo) : Nat :=
  u64 (b.bitmapPhysStart + maxPages + pageSize - 1) / pageSize

/-- The statics of `pmm.c` before `setup_pmm` runs. -/
def Pmm.initial (ram : Nat → BitVec 8) : Pmm where
  pageBitmap := fun _ => false
  pageMappings := []
  lastUsedMapping := 0
  lastPageUsed := 1
  freePages := BitVec.ofNat 64 maxPages
  usedPages := 0
  desc := ⟨0, 0, []⟩
  ram := ram

/-- `setup_pmm` returns nothing; the pointer here is the page its self-test takes and keeps. -/
def setupPmm (b : BootInfo) (ram : Nat → BitVec 8) : Except Fault (Nat × Pmm) := do
  let desc ← getMemoryDescriptor b.memmap
  let s ← generatePageMapping { Pmm.initial ram with desc := desc }
  let s ← reservePages s b.kernelFirstPage (b.kernelLastPage + 1 - b.kernelFirstPage)
  let s ← reservePages s b.bitmapFirstPage (b.bitmapLastPage + 1 - b.bitmapFirstPage)
  ppAlloc b s

end AdaOS
