import AdaOS.Memmap

namespace AdaOS
set_option autoImplicit true

/-- The variables of a call of `get_memory_descriptor`, with the static array it fills. -/
structure ChunkTable where
  freeChunks : Vector Chunk maxChunks
  foundChunks : Nat
  length : Nat

def ChunkTable.store (t : ChunkTable) (i : Nat) (c : Chunk) : Except Fault ChunkTable :=
  if h : i < maxChunks then .ok { t with freeChunks := t.freeChunks.set i c h }
  else .error .outOfBounds

/-- `free_chunks[found_chunks - 1]`, once there is one. -/
def ChunkTable.last (t : ChunkTable) : Option Chunk :=
  if t.foundChunks > 0 then t.freeChunks[t.foundChunks - 1]? else none

def ChunkTable.push (t : ChunkTable) (c : Chunk) : Except Fault ChunkTable := do
  let t ← t.store t.foundChunks c
  .ok { t with foundChunks := t.foundChunks + 1 }

/-- The newest chunk grows when the entry starts where it ends, and a new one starts otherwise. -/
def ChunkTable.place (t : ChunkTable) (e : MemmapEntry) : Except Fault ChunkTable :=
  let bounds := u64 (e.base + e.length)
  match t.last with
  | some c =>
    if c.bounds = e.base then t.store (t.foundChunks - 1) ⟨c.base, bounds⟩
    else t.push ⟨e.base, bounds⟩
  | none => t.push ⟨e.base, bounds⟩

/-- One turn of the loop of `get_memory_descriptor`. -/
def ChunkTable.addEntry (t : ChunkTable) (e : MemmapEntry) : Except Fault ChunkTable :=
  if isMemoryFree e.type then
    ChunkTable.place { t with length := u64 (t.length + e.length) } e
  else .ok t

/-- `get_memory_descriptor` on an array with the contents `freeChunks` left by earlier calls, and
the array it leaves. `chunk_ptr` points into the array. -/
def getMemoryDescriptorIn (freeChunks : Vector Chunk maxChunks) (memmap : List MemmapEntry) :
    Except Fault (MemoryDescriptor × Vector Chunk maxChunks) := do
  let t ← memmap.foldlM ChunkTable.addEntry ⟨freeChunks, 0, 0⟩
  .ok ({
    length := t.length
    chunkCount := t.foundChunks % 256
    chunkPtr := t.freeChunks.toList.take t.foundChunks }, t.freeChunks)

variable {t t' : ChunkTable} {stale : Vector Chunk maxChunks} {chunks : List Chunk}
  {e : MemmapEntry} {entries memmap : List MemmapEntry}

/-- The array holds the chunks found so far, newest last, and stale ones after them. -/
structure ChunkTable.Lists (stale : Vector Chunk maxChunks) (t : ChunkTable)
    (chunks : List Chunk) : Prop where
  count : t.foundChunks = chunks.length
  room : chunks.length ≤ maxChunks
  slots : t.freeChunks.toList.take t.foundChunks = chunks.reverse
  rest : t.freeChunks.toList.drop t.foundChunks = stale.toList.drop t.foundChunks

theorem ChunkTable.Lists.last_nil (h : t.Lists stale []) : t.last = none :=
  if_neg (by rw [h.count]; exact Nat.lt_irrefl 0)

theorem ChunkTable.Lists.last_cons (h : t.Lists stale (c :: cs)) : t.last = some c := by
  have hn : t.foundChunks = cs.length + 1 := h.count
  have hlast := congrArg (·[cs.length]?) h.slots
  simp only [hn, List.getElem?_take_of_lt (Nat.lt_succ_self _), List.reverse_cons] at hlast
  rw [ChunkTable.last, if_pos (by omega), hn, Nat.add_sub_cancel, ← Vector.getElem?_toList, hlast]
  have hend : cs.length = cs.reverse.length := List.length_reverse.symm
  rw [hend, List.getElem?_concat_length]

theorem ChunkTable.Lists.store (h : t.Lists stale (c :: cs)) (c' : Chunk) :
    ∃ t', t.store (t.foundChunks - 1) c' = .ok t' ∧ t'.Lists stale (c' :: cs) ∧
      t'.length = t.length := by
  have hn : t.foundChunks = cs.length + 1 := h.count
  have hroom : cs.length + 1 ≤ maxChunks := h.room
  have hlt : t.foundChunks - 1 < maxChunks := by omega
  refine ⟨_, dif_pos hlt, ⟨h.count, hroom, ?_, ?_⟩, rfl⟩
  · have hslots := h.slots
    simp only [Vector.toList_set, List.take_set, hslots, List.reverse_cons]
    have hend : t.foundChunks - 1 = cs.reverse.length := by
      rw [List.length_reverse]
      omega
    rw [hend, List.set_append_right _ _ (Nat.le_refl _), Nat.sub_self, List.set_cons_zero]
  · simp only [Vector.toList_set]
    rw [List.drop_set, if_pos (by omega)]
    exact h.rest

theorem ChunkTable.Lists.push (h : t.Lists stale chunks) (hlt : chunks.length < maxChunks)
    (c : Chunk) :
    ∃ t', t.push c = .ok t' ∧ t'.Lists stale (c :: chunks) ∧ t'.length = t.length := by
  have hn := h.count
  have hlt' : t.foundChunks < maxChunks := by omega
  have hlen : t.freeChunks.toList.length = maxChunks := Vector.length_toList
  have hs : t.store t.foundChunks c =
      .ok { t with freeChunks := t.freeChunks.set t.foundChunks c hlt' } := dif_pos hlt'
  refine ⟨_, bind_of_ok hs _, ⟨?_, hlt, ?_, ?_⟩, rfl⟩
  · exact congrArg (· + 1) hn
  · simp only [Vector.toList_set, List.reverse_cons]
    rw [List.take_succ_eq_append_getElem (by rw [List.length_set, hlen]; exact hlt'),
      List.take_set, List.set_eq_of_length_le (by rw [List.length_take]; omega), h.slots,
      List.getElem_set_self]
  · simp only [Vector.toList_set]
    rw [List.drop_set, if_pos (Nat.lt_succ_self _)]
    have hr := congrArg (List.drop 1) h.rest
    rwa [List.drop_drop, List.drop_drop] at hr

theorem ChunkTable.Lists.push_full (h : t.Lists stale chunks) (hge : maxChunks ≤ chunks.length)
    (c : Chunk) : t.push c = .error .outOfBounds := by
  have hn := h.count
  have hs : t.store t.foundChunks c = .error .outOfBounds := dif_neg (by omega)
  rw [ChunkTable.push, hs]
  rfl

theorem ChunkTable.Lists.place (h : t.Lists stale chunks) (hf : isMemoryFree e.type = true) :
    (∃ t' chunks', t.place e = .ok t' ∧ AdaOS.addEntry chunks e = .ok chunks' ∧
      t'.Lists stale chunks' ∧ t'.length = t.length) ∨
    t.place e = .error .outOfBounds ∧ AdaOS.addEntry chunks e = .error .outOfBounds := by
  unfold ChunkTable.place AdaOS.addEntry
  rw [if_pos hf]
  cases chunks with
  | nil =>
    obtain ⟨t', he, hl, hlen⟩ := h.push (by decide) ⟨e.base, u64 (e.base + e.length)⟩
    rw [h.last_nil]
    exact .inl ⟨t', _, he, rfl, hl, hlen⟩
  | cons c cs =>
    rw [h.last_cons]
    simp only
    split
    · obtain ⟨t', he, hl, hlen⟩ := h.store ⟨c.base, u64 (e.base + e.length)⟩
      exact .inl ⟨t', _, he, rfl, hl, hlen⟩
    · split
      · next hlt =>
        obtain ⟨t', he, hl, hlen⟩ := h.push hlt ⟨e.base, u64 (e.base + e.length)⟩
        exact .inl ⟨t', _, he, rfl, hl, hlen⟩
      · next hge => exact .inr ⟨h.push_full (Nat.le_of_not_lt hge) _, rfl⟩

theorem ChunkTable.Lists.addEntry (h : t.Lists stale chunks) :
    (∃ t' chunks', t.addEntry e = .ok t' ∧ AdaOS.addEntry chunks e = .ok chunks' ∧
      t'.Lists stale chunks' ∧ t'.length = freeLength t.length e) ∨
    t.addEntry e = .error .outOfBounds ∧ AdaOS.addEntry chunks e = .error .outOfBounds := by
  rw [ChunkTable.addEntry, freeLength]
  by_cases hf : isMemoryFree e.type = true
  · rw [if_pos hf, if_pos hf]
    have hl : ChunkTable.Lists stale { t with length := u64 (t.length + e.length) } chunks :=
      ⟨h.count, h.room, h.slots, h.rest⟩
    exact hl.place hf
  · rw [if_neg hf, if_neg hf, AdaOS.addEntry.eq_def, if_neg hf]
    exact .inl ⟨t, chunks, rfl, rfl, h, rfl⟩

theorem ChunkTable.Lists.addEntries (h : t.Lists stale chunks) (entries : List MemmapEntry) :
    (∃ t' chunks', entries.foldlM ChunkTable.addEntry t = .ok t' ∧
      entries.foldlM AdaOS.addEntry chunks = .ok chunks' ∧ t'.Lists stale chunks' ∧
      t'.length = entries.foldl freeLength t.length) ∨
    entries.foldlM ChunkTable.addEntry t = .error .outOfBounds ∧
      entries.foldlM AdaOS.addEntry chunks = .error .outOfBounds := by
  induction entries generalizing t chunks with
  | nil => exact .inl ⟨t, chunks, rfl, rfl, h, rfl⟩
  | cons e entries ih =>
    rw [List.foldlM_cons, List.foldlM_cons, List.foldl_cons]
    rcases h.addEntry (e := e) with ⟨t₁, chunks₁, he, he', h₁, hlen⟩ | ⟨he, he'⟩
    · rw [bind_of_ok he, bind_of_ok he', ← hlen]
      exact ih h₁
    · rw [he, he']
      exact .inr ⟨rfl, rfl⟩

theorem ChunkTable.Lists.start (stale : Vector Chunk maxChunks) :
    ChunkTable.Lists stale ⟨stale, 0, 0⟩ [] := ⟨rfl, Nat.zero_le _, rfl, rfl⟩

theorem getMemoryDescriptorIn_cases (stale : Vector Chunk maxChunks) (memmap : List MemmapEntry) :
    (∃ d freeChunks, getMemoryDescriptorIn stale memmap = .ok (d, freeChunks) ∧
      getMemoryDescriptor memmap = .ok d ∧
      freeChunks.toList = d.chunkPtr ++ stale.toList.drop d.chunkPtr.length) ∨
    getMemoryDescriptorIn stale memmap = .error .outOfBounds ∧
      getMemoryDescriptor memmap = .error .outOfBounds := by
  rw [getMemoryDescriptorIn, getMemoryDescriptor]
  rcases (ChunkTable.Lists.start stale).addEntries memmap with
    ⟨t, chunks, he, he', hl, hlen⟩ | ⟨he, he'⟩
  · rw [bind_of_ok he, bind_of_ok he', hl.count, ← hl.count, hl.slots, hlen, hl.count]
    refine .inl ⟨_, _, rfl, rfl, ?_⟩
    rw [List.length_reverse, ← hl.count, ← hl.rest, ← hl.slots, List.take_append_drop]
  · rw [he, he']
    exact .inr ⟨rfl, rfl⟩

/-- A second call returns the same descriptor and leaves the array as the first call did. -/
theorem getMemoryDescriptorIn_twice (h : getMemoryDescriptorIn stale memmap = .ok (d, freeChunks)) :
    getMemoryDescriptorIn freeChunks memmap = .ok (d, freeChunks) := by
  rcases getMemoryDescriptorIn_cases stale memmap with ⟨d₁, c₁, h₁, hd₁, hc₁⟩ | ⟨h₁, _⟩
  · rw [h] at h₁
    cases h₁
    rcases getMemoryDescriptorIn_cases freeChunks memmap with ⟨d₂, c₂, h₂, hd₂, hc₂⟩ | ⟨_, hd₂⟩
    · rw [hd₁] at hd₂
      cases hd₂
      rw [h₂]
      rw [hc₁, List.drop_left] at hc₂
      rw [Vector.toList_inj.1 (hc₂.trans hc₁.symm)]
    · rw [hd₁] at hd₂
      cases hd₂
  · rw [h] at h₁
    cases h₁

/-- The chunks an array without an end would hold, newest first. -/
def mergeEntry (chunks : List Chunk) (e : MemmapEntry) : List Chunk :=
  if isMemoryFree e.type then
    match chunks with
    | c :: cs =>
      if c.bounds = e.base then ⟨c.base, u64 (e.base + e.length)⟩ :: cs
      else ⟨e.base, u64 (e.base + e.length)⟩ :: c :: cs
    | [] => [⟨e.base, u64 (e.base + e.length)⟩]
  else chunks

def foundChunks (memmap : List MemmapEntry) : List Chunk := memmap.foldl mergeEntry []

theorem mergeEntry_length : chunks.length ≤ (mergeEntry chunks e).length := by
  unfold mergeEntry
  split
  · split
    · split
      · exact Nat.le_refl _
      · exact Nat.le_succ _
    · exact Nat.zero_le _
  · exact Nat.le_refl _

theorem mergeEntries_length (entries : List MemmapEntry) (chunks : List Chunk) :
    chunks.length ≤ (entries.foldl mergeEntry chunks).length := by
  induction entries generalizing chunks with
  | nil => exact Nat.le_refl _
  | cons e entries ih => exact Nat.le_trans mergeEntry_length (ih _)

theorem addEntry_eq (h : chunks.length ≤ maxChunks) :
    addEntry chunks e = if (mergeEntry chunks e).length ≤ maxChunks then .ok (mergeEntry chunks e)
      else .error .outOfBounds := by
  unfold addEntry mergeEntry
  cases isMemoryFree e.type with
  | false => exact (if_pos h).symm
  | true =>
    cases chunks with
    | nil => rfl
    | cons c cs =>
      simp only [↓reduceIte]
      split
      · exact (if_pos h).symm
      · rfl

theorem addEntries_eq (h : chunks.length ≤ maxChunks) :
    entries.foldlM addEntry chunks =
      if (entries.foldl mergeEntry chunks).length ≤ maxChunks then
        .ok (entries.foldl mergeEntry chunks)
      else .error .outOfBounds := by
  induction entries generalizing chunks with
  | nil => exact (if_pos h).symm
  | cons e entries ih =>
    rw [List.foldlM_cons, List.foldl_cons, addEntry_eq h]
    by_cases hfit : (mergeEntry chunks e).length ≤ maxChunks
    · rw [if_pos hfit]
      exact ih hfit
    · have hle := mergeEntries_length entries (mergeEntry chunks e)
      rw [if_neg hfit, if_neg (by omega)]
      rfl

theorem getMemoryDescriptor_eq (h : (foundChunks memmap).length ≤ maxChunks) :
    getMemoryDescriptor memmap = .ok {
      length := memmap.foldl freeLength 0
      chunkCount := (foundChunks memmap).length
      chunkPtr := (foundChunks memmap).reverse } := by
  have hfold : memmap.foldlM addEntry [] = .ok (foundChunks memmap) := by
    rw [addEntries_eq (Nat.zero_le _)]
    exact if_pos h
  have hlt : (foundChunks memmap).length % 256 = (foundChunks memmap).length :=
    Nat.mod_eq_of_lt (Nat.lt_of_le_of_lt h (by decide))
  rw [getMemoryDescriptor, bind_of_ok hfold, hlt]

theorem getMemoryDescriptor_full (h : maxChunks < (foundChunks memmap).length) :
    getMemoryDescriptor memmap = .error .outOfBounds := by
  have hfold : memmap.foldlM addEntry [] = .error .outOfBounds := by
    rw [addEntries_eq (Nat.zero_le _)]
    exact if_neg (Nat.not_le_of_lt h)
  rw [getMemoryDescriptor, hfold]
  rfl

end AdaOS
