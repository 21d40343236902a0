import AdaOS.Windows

namespace AdaOS
set_option autoImplicit true

variable {b : BootInfo} {c : Chunk} {e : MemmapEntry} {entries : List MemmapEntry}

/-- The memory maps the physical allocator is asked to manage. Physical addresses have 52 bits,
the width `PTE_ADDR_MASK` leaves for them. -/
structure Admissible (b : BootInfo) : Prop where
  sorted : b.memmap.Pairwise (fun e f => e.base ≤ f.base)
  physical : ∀ e ∈ b.memmap, e.base + e.length ≤ 2 ^ 52
  aligned : ∀ e ∈ b.memmap, isMemoryFree e.type = true →
    pageSize ∣ e.base ∧ pageSize ∣ e.length
  disjoint : (b.memmap.filter (isMemoryFree ·.type)).Pairwise
    (fun e f => e.base + e.length ≤ f.base)
  chunks : ∀ d, getMemoryDescriptor b.memmap = .ok d → d.chunkPtr.length ≤ 30

/-- The maps the fixed tables have room for. -/
structure Manageable (b : BootInfo) : Prop where
  physical : ∀ e ∈ b.memmap, e.base + e.length ≤ 2 ^ 52
  chunks : ∀ d, getMemoryDescriptor b.memmap = .ok d → d.chunkPtr.length ≤ 30

theorem Admissible.manageable (hb : Admissible b) : Manageable b := ⟨hb.physical, hb.chunks⟩

structure Chunk.Physical (c : Chunk) : Prop where
  ordered : c.base ≤ c.bounds
  physical : c.bounds ≤ 2 ^ 52

structure Chunk.Regular (c : Chunk) : Prop where
  base : pageSize ∣ c.base
  bounds : pageSize ∣ c.bounds
  ordered : c.base ≤ c.bounds
  physical : c.bounds ≤ 2 ^ 52

theorem Chunk.Regular.within (hc : c.Regular) : c.Physical := ⟨hc.ordered, hc.physical⟩

theorem Chunk.Physical.extend (hc : c.Physical) (he : c.bounds = start)
    (hp : start + length ≤ 2 ^ 52) : Chunk.Physical ⟨c.base, u64 (start + length)⟩ := by
  rw [u64_of_lt (by omega)]
  have ho := hc.ordered
  exact ⟨by change c.base ≤ start + length; omega, hp⟩

theorem Chunk.Regular.extend (hc : c.Regular) (he : c.bounds = start)
    (hl : pageSize ∣ length) (hp : start + length ≤ 2 ^ 52) :
    Chunk.Regular ⟨c.base, u64 (start + length)⟩ := by
  obtain ⟨ho, hb⟩ := hc.within.extend he hp
  refine ⟨hc.base, ?_, ho, hb⟩
  rw [u64_of_lt (by omega)]
  exact Nat.dvd_add (he ▸ hc.bounds) hl

/-- One entry of the map adds to the chunks, or extends the newest one. -/
theorem addEntry_cases (h : addEntry chunks e = .ok chunks') :
    (isMemoryFree e.type = false ∧ chunks' = chunks) ∨
    (isMemoryFree e.type = true ∧ ∃ c cs, chunks = c :: cs ∧ c.bounds = e.base ∧
      chunks' = ⟨c.base, u64 (e.base + e.length)⟩ :: cs) ∨
    (isMemoryFree e.type = true ∧ chunks' = ⟨e.base, u64 (e.base + e.length)⟩ :: chunks) := by
  unfold addEntry at h
  split at h
  · next hf =>
    cases chunks with
    | nil =>
      cases h
      exact .inr (.inr ⟨hf, rfl⟩)
    | cons c cs =>
      simp only at h
      split at h
      · next hc =>
        cases h
        exact .inr (.inl ⟨hf, c, cs, rfl, hc, rfl⟩)
      · split at h
        · cases h
          exact .inr (.inr ⟨hf, rfl⟩)
        · cases h
  · next hf =>
    cases h
    exact .inl ⟨eq_false_of_ne_true hf, rfl⟩

theorem addEntry_all {P : Chunk → Prop} (h : addEntry chunks e = .ok chunks')
    (hnew : isMemoryFree e.type = true → P ⟨e.base, u64 (e.base + e.length)⟩)
    (hext : isMemoryFree e.type = true → ∀ c, P c → c.bounds = e.base →
      P ⟨c.base, u64 (e.base + e.length)⟩)
    (hc : ∀ c ∈ chunks, P c) : ∀ c ∈ chunks', P c := by
  rcases addEntry_cases h with ⟨_, rfl⟩ | ⟨hf, c, cs, rfl, hb, rfl⟩ | ⟨hf, rfl⟩
  · exact hc
  · obtain ⟨hc, hcs⟩ := List.forall_mem_cons.1 hc
    exact List.forall_mem_cons.2 ⟨hext hf c hc hb, hcs⟩
  · exact List.forall_mem_cons.2 ⟨hnew hf, hc⟩

theorem addEntries_all {P : Chunk → Prop} (h : entries.foldlM addEntry chunks = .ok chunks')
    (hnew : ∀ e ∈ entries, isMemoryFree e.type = true → P ⟨e.base, u64 (e.base + e.length)⟩)
    (hext : ∀ e ∈ entries, isMemoryFree e.type = true → ∀ c, P c → c.bounds = e.base →
      P ⟨c.base, u64 (e.base + e.length)⟩)
    (hc : ∀ c ∈ chunks, P c) : ∀ c ∈ chunks', P c := by
  induction entries generalizing chunks with
  | nil =>
    cases h
    exact hc
  | cons e entries ih =>
    obtain ⟨mid, he, h⟩ := bind_ok h
    rw [List.forall_mem_cons] at hnew hext
    exact ih h hnew.2 hext.2 (addEntry_all he hnew.1 hext.1 hc)

theorem addEntry_physical (h : addEntry chunks e = .ok chunks')
    (hp : e.base + e.length ≤ 2 ^ 52) (hc : ∀ c ∈ chunks, c.Physical) :
    ∀ c ∈ chunks', c.Physical := by
  have hstart : Chunk.Physical ⟨e.base, e.base⟩ :=
    ⟨Nat.le_refl _, by change e.base ≤ 2 ^ 52; omega⟩
  exact addEntry_all h (fun _ => hstart.extend rfl hp) (fun _ c hc he => hc.extend he hp) hc

/-- `c` lies inside one of the chunks. -/
def Inside (c : Chunk) (chunks : List Chunk) : Prop :=
  ∃ c' ∈ chunks, c'.base ≤ c.base ∧ c.bounds ≤ c'.bounds

theorem Inside.of_mem (h : c ∈ chunks) : Inside c chunks :=
  ⟨c, h, Nat.le_refl _, Nat.le_refl _⟩

theorem addEntry_covers (h : addEntry chunks e = .ok chunks')
    (hp : e.base + e.length ≤ 2 ^ 52) (hc : ∀ c ∈ chunks, c.Physical) :
    (∀ c, Inside c chunks → Inside c chunks') ∧
      (isMemoryFree e.type = true → Inside ⟨e.base, e.base + e.length⟩ chunks') := by
  rcases addEntry_cases h with ⟨hf, rfl⟩ | ⟨_, c, cs, rfl, hb, rfl⟩ | ⟨_, rfl⟩
  · refine ⟨fun c hc => hc, fun h => ?_⟩
    rw [hf] at h
    cases h
  · have ho := (hc c (List.mem_cons_self ..)).ordered
    rw [u64_of_lt (by omega)]
    refine ⟨?_, fun _ =>
      ⟨_, List.mem_cons_self .., by change c.base ≤ e.base; omega, Nat.le_refl _⟩⟩
    rintro d ⟨c', hc', hle⟩
    rcases List.mem_cons.1 hc' with rfl | hc'
    · exact ⟨_, List.mem_cons_self .., hle.1, by change d.bounds ≤ e.base + e.length; omega⟩
    · exact ⟨c', List.mem_cons_of_mem _ hc', hle⟩
  · rw [u64_of_lt (by omega)]
    refine ⟨?_, fun _ => .of_mem (List.mem_cons_self ..)⟩
    rintro d ⟨c', hc', hle⟩
    exact ⟨c', List.mem_cons_of_mem _ hc', hle⟩

theorem addEntries_cover (h : entries.foldlM addEntry chunks = .ok chunks')
    (hp : ∀ e ∈ entries, e.base + e.length ≤ 2 ^ 52) (hc : ∀ c ∈ chunks, c.Physical) :
    (∀ c, Inside c chunks → Inside c chunks') ∧ ∀ e ∈ entries,
      isMemoryFree e.type = true → Inside ⟨e.base, e.base + e.length⟩ chunks' := by
  induction entries generalizing chunks with
  | nil =>
    cases h
    exact ⟨fun c hc => hc, fun e he => nomatch he⟩
  | cons e entries ih =>
    obtain ⟨mid, he, h⟩ := bind_ok h
    rw [List.forall_mem_cons] at hp
    obtain ⟨hkeep, hnew⟩ := addEntry_covers he hp.1 hc
    obtain ⟨hkeep', hrest⟩ := ih h hp.2 (addEntry_physical he hp.1 hc)
    exact ⟨fun c hc => hkeep' c (hkeep c hc),
      List.forall_mem_cons.2 ⟨fun hf => hkeep' _ (hnew hf), hrest⟩⟩

/-- The chunks of `get_memory_descriptor`, none when it faults. -/
def BootInfo.chunks (b : BootInfo) : List Chunk :=
  match getMemoryDescriptor b.memmap with
  | .ok d => d.chunkPtr
  | .error _ => []

/-- The mapping table `generate_page_mapping` builds from these chunks. -/
def BootInfo.mappings (b : BootInfo) : List PageMapping := pageMappingsOf 0 b.chunks

theorem getMemoryDescriptor_ok (h : getMemoryDescriptor memmap = .ok d) :
    ∃ chunks, memmap.foldlM addEntry [] = .ok chunks ∧ d.chunkPtr = chunks.reverse ∧
      d.chunkCount = d.chunkPtr.length % 256 := by
  obtain ⟨chunks, hc, h⟩ := bind_ok h
  cases h
  exact ⟨chunks, hc, rfl, by rw [List.length_reverse]⟩

def FewChunks (b : BootInfo) : Prop :=
  ∀ d, getMemoryDescriptor b.memmap = .ok d → d.chunkPtr.length ≤ 30

theorem FewChunks.chunks_eq (hb : FewChunks b) (h : getMemoryDescriptor b.memmap = .ok d) :
    b.chunks = d.chunkPtr ∧ d.chunkCount = d.chunkPtr.length ∧ d.chunkPtr.length ≤ 30 := by
  obtain ⟨_, _, _, hn⟩ := getMemoryDescriptor_ok h
  have hle := hb d h
  refine ⟨by rw [BootInfo.chunks, h], ?_, hle⟩
  rw [hn, Nat.mod_eq_of_lt (by omega)]

theorem Manageable.few (hb : Manageable b) : FewChunks b := hb.chunks

theorem BootInfo.chunks_all {P : Chunk → Prop}
    (hnew : ∀ e ∈ b.memmap, isMemoryFree e.type = true → P ⟨e.base, u64 (e.base + e.length)⟩)
    (hext : ∀ e ∈ b.memmap, isMemoryFree e.type = true → ∀ c, P c → c.bounds = e.base →
      P ⟨c.base, u64 (e.base + e.length)⟩) : ∀ c ∈ b.chunks, P c := by
  rw [BootInfo.chunks]
  split
  · next d hd =>
    obtain ⟨chunks, hc, he, _⟩ := getMemoryDescriptor_ok hd
    rw [he]
    intro c hm
    exact addEntries_all hc hnew hext (fun _ h => nomatch h) c (List.mem_reverse.1 hm)
  · exact fun _ h => nomatch h

theorem Manageable.chunk_physical (hb : Manageable b) : ∀ c ∈ b.chunks, c.Physical := by
  refine b.chunks_all (fun e he _ => ?_) (fun e he _ c hc hs => hc.extend hs (hb.physical e he))
  have hp := hb.physical e he
  have hstart : Chunk.Physical ⟨e.base, e.base⟩ :=
    ⟨Nat.le_refl _, by change e.base ≤ 2 ^ 52; omega⟩
  exact hstart.extend rfl hp

theorem Admissible.chunk_regular (hb : Admissible b) : ∀ c ∈ b.chunks, c.Regular := by
  refine b.chunks_all (fun e he hf => ?_) fun e he hf c hc hs =>
    hc.extend hs (hb.aligned e he hf).2 (hb.physical e he)
  obtain ⟨hbase, hl⟩ := hb.aligned e he hf
  have hp := hb.physical e he
  have hstart : Chunk.Regular ⟨e.base, e.base⟩ :=
    ⟨hbase, hbase, Nat.le_refl _, by change e.base ≤ 2 ^ 52; omega⟩
  exact hstart.extend rfl hl hp

theorem Admissible.free_inside (hb : Admissible b) (h : getMemoryDescriptor b.memmap = .ok d)
    (he : e ∈ b.memmap) (hf : isMemoryFree e.type = true) :
    Inside ⟨e.base, e.base + e.length⟩ b.chunks := by
  obtain ⟨chunks, hc, hr, _⟩ := getMemoryDescriptor_ok h
  rw [(hb.manageable.few.chunks_eq h).1, hr]
  obtain ⟨c, hc, hle⟩ := (addEntries_cover hc hb.physical (fun _ h => nomatch h)).2 e he hf
  exact ⟨c, List.mem_reverse.2 hc, hle⟩

structure PageMapping.Regular (m : PageMapping) : Prop where
  aligned : pageSize ∣ m.offset
  low : 0x100000 ≤ m.offset
  ordered : m.pageStartIndex ≤ m.pageEndIndex
  fits : m.offset + (m.pageEndIndex - m.pageStartIndex) * pageSize < 2 ^ 64

theorem Chunk.Physical.mapping (hc : c.Physical) (used : Nat) :
    (pageMappingOf used c).Unwrapped := by
  have ho := hc.ordered
  have hp := hc.physical
  have hn : (c.bounds - c.base) / pageSize ≤ 2 ^ 52 / 4096 :=
    Nat.div_le_div_right (by omega)
  have hup : alignUp ((c.bounds - c.base) / pageSize) pageSize < 2 ^ 52 / 4096 + 4096 := by
    have hlt : alignUp ((c.bounds - c.base) / pageSize) pageSize < _ :=
      alignUp_lt (by simp only [pageSize] at *; omega) (by decide)
    simp only [pageSize] at *
    omega
  have hs : sub64 c.bounds c.base = c.bounds - c.base := sub64_of_le ho (by omega)
  refine ⟨Nat.le_add_right _ _, ?_⟩
  simp only [pageMappingOf, hs, Nat.add_sub_cancel_left]
  have hoff : (if c.base > 0x100000 then c.base else 0x100000) ≤ 2 ^ 52 := by
    split <;> omega
  simp only [pageSize] at *
  omega

theorem low_le_offset (used : Nat) (c : Chunk) : 0x100000 ≤ (pageMappingOf used c).offset := by
  change 0x100000 ≤ if c.base > 0x100000 then c.base else 0x100000
  split <;> omega

theorem Chunk.Regular.mapping (hc : c.Regular) (used : Nat) :
    (pageMappingOf used c).Regular := by
  obtain ⟨ho, hf⟩ := hc.within.mapping used
  refine ⟨?_, low_le_offset used c, ho, hf⟩
  change pageSize ∣ if c.base > 0x100000 then c.base else 0x100000
  split
  · exact hc.base
  · decide

theorem pageMappingOf_end (hc : c.Physical) (hu : pagesAfter used c ≤ u)
    (hm : u < (pageMappingOf u c').pageEndIndex) :
    (pageMappingOf used c).pageEndIndex < (pageMappingOf u c').pageEndIndex := by
  have ho := hc.ordered
  have hp := hc.physical
  have hs : sub64 c.bounds c.base = c.bounds - c.base := sub64_of_le ho (by omega)
  have hn : (c.bounds - c.base) / pageSize ≤ c.bounds - c.base := Nat.div_le_self _ _
  have hlt : alignUp ((c.bounds - c.base) / pageSize) pageSize <
      (c.bounds - c.base) / pageSize + pageSize :=
    alignUp_lt (by simp only [pageSize] at *; omega) (by decide)
  obtain ⟨k, hk⟩ := alignUp_dvd (sub64 c'.bounds c'.base / pageSize) pageSize
  simp only [pageMappingOf, pagesAfter, hs, hk] at *
  simp only [pageSize] at *
  omega

theorem pageMappingsOf_length : (pageMappingsOf used chunks).length = chunks.length := by
  induction chunks generalizing used with
  | nil => rfl
  | cons c chunks ih => simp only [pageMappingsOf, List.length_cons, ih]

theorem mem_pageMappingsOf (h : m ∈ pageMappingsOf used chunks) :
    ∃ c ∈ chunks, ∃ u ≥ used, m = pageMappingOf u c := by
  induction chunks generalizing used with
  | nil => cases h
  | cons c chunks ih =>
    rcases List.mem_cons.1 h with rfl | h
    · exact ⟨c, List.mem_cons_self .., used, Nat.le_refl _, rfl⟩
    · obtain ⟨c', hc', u, hu, hm⟩ := ih h
      exact ⟨c', List.mem_cons_of_mem _ hc', u, Nat.le_trans (Nat.le_add_right ..) hu, hm⟩

theorem Manageable.mapping_unwrapped (hb : Manageable b) : ∀ m ∈ b.mappings, m.Unwrapped := by
  intro m hm
  obtain ⟨c, hc, u, _, rfl⟩ := mem_pageMappingsOf hm
  exact (hb.chunk_physical c hc).mapping u

theorem Admissible.mapping_regular (hb : Admissible b) : ∀ m ∈ b.mappings, m.Regular := by
  intro m hm
  obtain ⟨c, hc, u, _, rfl⟩ := mem_pageMappingsOf hm
  exact (hb.chunk_regular c hc).mapping u

section Windows
variable {m : PageMapping}

theorem PageMapping.Regular.unwrapped (hm : m.Regular) : m.Unwrapped := ⟨hm.ordered, hm.fits⟩

theorem PageMapping.Regular.ptrOf_eq (hm : m.Regular) (hi : m.holdsIndex i = true) :
    m.ptrOf i = m.offset + (i - m.pageStartIndex) * pageSize := hm.unwrapped.ptrOf_eq hi

theorem PageMapping.Regular.ptrOf_aligned (hm : m.Regular) (hi : m.holdsIndex i = true) :
    m.ptrOf i % pageSize = 0 := by
  rw [hm.ptrOf_eq hi]
  exact Nat.mod_eq_zero_of_dvd (Nat.dvd_add hm.aligned (Nat.dvd_mul_left _ _))

theorem PageMapping.Regular.low_lt_ptrOf (hm : m.Regular) (hi : m.holdsIndex i = true) :
    0x100000 < m.ptrOf i := Nat.lt_of_le_of_lt hm.low (hm.unwrapped.lt_ptrOf hi)

theorem PageMapping.Regular.holdsPtr_ptrOf (hm : m.Regular) (hi : m.holdsIndex i = true) :
    m.holdsPtr (m.ptrOf i) = true := hm.unwrapped.holdsPtr_ptrOf hi

theorem PageMapping.Regular.ptrOf_indexOf (hm : m.Regular) (hp : m.holdsPtr p = true)
    (ha : p % pageSize = 0) :
    m.holdsIndex (m.indexOf p) = true ∧ m.ptrOf (m.indexOf p) = p :=
  hm.unwrapped.ptrOf_indexOf hm.aligned hp ha

end Windows

end AdaOS
