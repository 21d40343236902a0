import AdaOS.Basic

namespace AdaOS
set_option autoImplicit true

/-- The `LIMINE_MEMMAP_*` constants, in numerical order. -/
inductive MemmapType where
  | usable
  | reserved
  | acpiReclaimable
  | acpiNvs
  | badMemory
  | bootloaderReclaimable
  | executableAndModules
  | framebuffer
  deriving DecidableEq, Repr

structure MemmapEntry where
  base : Nat
  length : Nat
  type : MemmapType
  deriving DecidableEq, Repr

/-- `contiguous_memory_chunk_t`: the bytes from `base` up to, excluding, `bounds`. -/
structure Chunk where
  base : Nat
  bounds : Nat
  deriving DecidableEq, Repr

structure MemoryDescriptor where
  length : Nat
  chunkCount : Nat
  chunkPtr : List Chunk
  deriving DecidableEq, Repr

def maxChunks : Nat := 128

def isMemoryFree (type : MemmapType) : Bool :=
  type == .usable || type == .acpiReclaimable || type == .bootloaderReclaimable

/-- One turn of the loop of `get_memory_descriptor`. The chunks found so far are kept newest
first, so the head is `free_chunks[found_chunks - 1]`. -/
def addEntry (chunks : List Chunk) (e : MemmapEntry) : Except Fault (List Chunk) :=
  if isMemoryFree e.type then
    match chunks with
    | c :: cs =>
      if c.bounds = e.base then .ok (⟨c.base, u64 (e.base + e.length)⟩ :: cs)
      else if (c :: cs).length < maxChunks then
        .ok (⟨e.base, u64 (e.base + e.length)⟩ :: c :: cs)
      else .error .outOfBounds
    | [] => .ok [⟨e.base, u64 (e.base + e.length)⟩]
  else .ok chunks

def freeLength (length : Nat) (e : MemmapEntry) : Nat :=
  if isMemoryFree e.type then u64 (length + e.length) else length

/-- `chunk_count` is an 8-bit field. -/
def getMemoryDescriptor (memmap : List MemmapEntry) : Except Fault MemoryDescriptor := do
  let chunks ← memmap.foldlM addEntry []
  .ok {
    length := memmap.foldl freeLength 0
    chunkCount := chunks.length % 256
    chunkPtr := chunks.reverse }

end AdaOS
