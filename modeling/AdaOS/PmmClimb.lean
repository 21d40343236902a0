import AdaOS.PmmRuns

namespace AdaOS
set_option autoImplicit true

variable {b : BootInfo} {s s' s₀ : Pmm} {live live₀ : List (Nat × Nat)} {m : PageMapping}

theorem reservePages_succ (hi : i < maxPages) :
    ∃ s', s'.lastPageUsed = i ∧ reservePages s i (n + 1) = reservePages s' (i + 1) n := by
  rw [reservePages, if_pos (Nat.le_of_lt hi), pageFree_eq hi]
  simp only [bind, Except.bind, setUsed_eq hi]
  exact ⟨_, rfl, rfl⟩

theorem reservePages_run (hn : i + n < maxPages) :
    ∃ s', reservePages s i (n + 1) = .ok s' ∧ s'.lastPageUsed = i + n := by
  induction n generalizing s i with
  | zero =>
    obtain ⟨s', hl, he⟩ := reservePages_succ (s := s) (n := 0) hn
    exact ⟨s', he, hl⟩
  | succ n ih =>
    obtain ⟨s₁, _, he⟩ := reservePages_succ (s := s) (i := i) (n := n + 1) (by omega)
    obtain ⟨s₂, he', hl⟩ := ih (s := s₁) (i := i + 1) (by omega)
    exact ⟨s₂, he.trans he', hl.trans (by omega)⟩

/-- The allocator walking up the indices after `k`: each index up to `top` is clear, and the
search for its mapping starts at slot 0. -/
structure Climb (b : BootInfo) (s : Pmm) (k top : Nat) : Prop where
  ready : s.Ready
  table : s.pageMappings = b.mappings
  cursor : s.lastUsedMapping = 0
  start : startPage b s = k
  clear : ∀ j, k < j → j ≤ top → s.pageBitmap j = false

theorem Climb.getFreePage_eq (h : Climb b s k top) (hk : k < top) (ht : top < maxPages) :
    getFreePage b s = .ok (k + 1, { s with lastPageUsed := k + 1 }) := by
  rw [getFreePage, h.start, pageFree_eq (by omega), h.clear (k + 1) (Nat.lt_succ_self k) hk]
  rfl

theorem ppAlloc_located (hr : s.Ready) (hstart : startPage b s = k) (hk : k + 1 < maxPages)
    (hb : k + 1 < b.physicalBase) (hclear : s.pageBitmap (k + 1) = false) :
    ∃ p, ∃ c ≤ s.desc.chunkCount + 1,
      ppAlloc b s = .ok (p, s.taken (k + 1) c p) ∧ Located s (k + 1) p := by
  have hg : getFreePage b s = .ok (k + 1, { s with lastPageUsed := k + 1 }) := by
    rw [getFreePage, hstart, pageFree_eq hk, hclear]
    rfl
  obtain ⟨p, c, hc, he, hl⟩ := ppAllocIndex_located (s := { s with lastPageUsed := k + 1 })
    ⟨hr.slots, hr.room, hr.cursor⟩ hb hk hclear
  exact ⟨p, c, hc, (bind_of_ok hg _).trans he, hl⟩

theorem Climb.ppAlloc_eq (h : Climb b s k top) (hk : k < top) (ht : top < maxPages)
    (hb : top < b.physicalBase)
    (hs : searchMappings s (·.holdsIndex (k + 1)) = .ok (some m, c)) :
    ppAlloc b s = .ok (m.ptrOf (k + 1), s.taken (k + 1) c (m.ptrOf (k + 1))) := by
  have hclear := h.clear (k + 1) (Nat.lt_succ_self k) hk
  rw [ppAlloc, h.getFreePage_eq hk ht]
  exact ppAllocIndex_eq (s := { s with lastPageUsed := k + 1 }) (by omega) (by omega) hclear
    (pageToPtr_found (by omega) hs)

theorem Climb.setBit (h : Climb b s k top) (hk : k < top) :
    SetBit s (s.taken (k + 1) c p) (k + 1) :=
  ⟨h.clear (k + 1) (Nat.lt_succ_self k) hk, rfl⟩

theorem startPage_eq (hk : s.lastPageUsed < b.physicalBase / pageSize)
    (hlt : s.lastPageUsed < maxPages) : startPage b s = s.lastPageUsed := by
  simp only [startPage, if_neg (Nat.not_le_of_lt hk), if_neg (Nat.not_le_of_lt hlt)]

theorem startPage_reset (hk : b.physicalBase / pageSize ≤ s.lastPageUsed) :
    startPage b s = 1 := by
  simp only [startPage, ge_iff_le, if_pos hk]
  rfl

theorem Climb.next (h : Climb b s k top) (hk : k < top) (ht : top < maxPages)
    (hb : top < b.physicalBase / pageSize) : Climb b (s.taken (k + 1) 0 p) (k + 1) top where
  ready := ⟨h.ready.slots, h.ready.room, Nat.zero_le _⟩
  table := h.table
  cursor := rfl
  start := startPage_eq (by change k + 1 < _; omega) (by change k + 1 < _; omega)
  clear := fun j hj hle => by
    have hne : j ≠ k + 1 := by omega
    simp only [Pmm.taken, Function.update_of_ne hne]
    exact h.clear j (by omega) hle

theorem Climb.slot_zero (h : Climb b s k top) (hm : b.mappings = m :: ms) : s.slot 0 = m := by
  rw [Pmm.slot, h.table, hm, List.getD_cons_zero]

theorem Climb.search_zero (h : Climb b s k top) (hm : b.mappings = m :: ms)
    (hh : m.holdsIndex i = true) : searchMappings s (·.holdsIndex i) = .ok (some m, 0) := by
  have hz := h.slot_zero hm
  have he := searchMappings_here h.ready (·.holdsIndex i)
    (by rw [h.cursor, hz]; exact hh)
  rwa [h.cursor, hz] at he

theorem Climb.run (h : Climb b s k top) (hr : PmmRun b (fun _ => True) s₀ live₀ s live)
    (hm : b.mappings = m :: ms) (hreg : m.Regular) (n : Nat) (hn : k + n ≤ top)
    (ht : top < maxPages) (hb : top < b.physicalBase / pageSize)
    (hh : ∀ i, k < i → i ≤ k + n → m.holdsIndex i = true) :
    ∃ s' live', PmmRun b (fun _ => True) s₀ live₀ s' live' ∧ Climb b s' (k + n) top ∧
      (∀ e ∈ live, e ∈ live') ∧ ∀ i, k < i → i ≤ k + n → (m.ptrOf i, i) ∈ live' := by
  have hbase : b.physicalBase / pageSize ≤ b.physicalBase := Nat.div_le_self _ _
  induction n generalizing k s live with
  | zero => exact ⟨s, live, hr, h, fun e he => he, fun i hi hle => by omega⟩
  | succ n ih =>
    have hheld := hh (k + 1) (Nat.lt_succ_self k) (by omega)
    have halloc := h.ppAlloc_eq (by omega) ht (by omega) (h.search_zero hm hheld)
    have hlow := hreg.low_lt_ptrOf hheld
    have hr' := hr.alloc trivial halloc (by omega) (h.setBit (by omega))
    obtain ⟨s', live', hrun, hclimb, hkeep, hnew⟩ :=
      ih (h.next (by omega) ht hb) hr' (by omega) (fun i hi hle => hh i (by omega) (by omega))
    rw [Nat.add_right_comm, Nat.add_assoc] at hclimb
    refine ⟨s', live', hrun, hclimb, fun e he => hkeep e (List.mem_cons_of_mem _ he), ?_⟩
    intro i hi hle
    rcases Nat.eq_or_lt_of_le hi with rfl | hlt
    · exact hkeep _ (List.mem_cons_self ..)
    · exact hnew i hlt (by omega)

/-- `setup_pmm` on a map whose descriptor is known and whose reserved ranges lie inside the
bitmap: a climb from index 1, whose first page the self-test keeps. -/
theorem setupPmm_climb (hd : getMemoryDescriptor b.memmap = .ok d)
    (hcount : d.chunkCount = d.chunkPtr.length) (hlen : d.chunkPtr.length ≤ 30)
    (hk : b.kernelFirstPage ≤ b.kernelLastPage) (hkm : b.kernelLastPage < maxPages)
    (hb : b.bitmapFirstPage ≤ b.bitmapLastPage) (hbm : b.bitmapLastPage < maxPages)
    (hlast : b.physicalBase / pageSize ≤ b.bitmapLastPage)
    (hm : b.mappings = m :: ms) (hh : m.holdsIndex 2 = true)
    (htop : 2 ≤ top) (ht : top < b.kernelFirstPage) (ht' : top < b.bitmapFirstPage) :
    ∃ s, setupPmm b ram = .ok (m.ptrOf 2, s) ∧ Climb b s 2 top := by
  have hchunks : b.chunks = d.chunkPtr := by rw [BootInfo.chunks, hd]
  have htake : d.chunkPtr.take d.chunkCount = d.chunkPtr := by rw [hcount, List.take_length]
  obtain ⟨s₁, hg, hgm, hgd, hgc, hgb⟩ : ∃ s₁ : Pmm,
      generatePageMapping { Pmm.initial ram with desc := d } = .ok s₁ ∧
      s₁.pageMappings = b.mappings ∧ s₁.desc = d ∧ s₁.lastUsedMapping = 0 ∧
      ∀ k, s₁.pageBitmap k = false := by
    rw [generatePageMapping]
    simp only [htake]
    rw [if_pos (by simp only [maxSegments]; omega), BootInfo.mappings, hchunks]
    exact ⟨_, rfl, rfl, rfl, rfl, fun _ => rfl⟩
  obtain ⟨s₂, h₁, _⟩ := reservePages_run (s := s₁) (i := b.kernelFirstPage)
    (n := b.kernelLastPage - b.kernelFirstPage) (by omega)
  obtain ⟨s₃, h₂, hl⟩ := reservePages_run (s := s₂) (i := b.bitmapFirstPage)
    (n := b.bitmapLastPage - b.bitmapFirstPage) (by omega)
  obtain ⟨hkm', hkd, hkc, hkb⟩ := reservePages_ok h₁
  obtain ⟨hbm', hbd, hbc, hbb⟩ := reservePages_ok h₂
  have hsetup : setupPmm b ram = ppAlloc b s₃ := by
    rw [← Nat.sub_add_comm hk] at h₁
    rw [← Nat.sub_add_comm hb] at h₂
    exact (bind_of_ok hd _).trans ((bind_of_ok hg _).trans
      ((bind_of_ok h₁ _).trans (bind_of_ok h₂ _)))
  have hclimb : Climb b s₃ 1 top := by
    have hdesc : s₃.desc = d := (hbd.trans hkd).trans hgd
    have htable : s₃.pageMappings = b.mappings := (hbm'.trans hkm').trans hgm
    have hcur : s₃.lastUsedMapping = 0 := (hbc.trans hkc).trans hgc
    refine ⟨⟨?_, ?_, ?_⟩, htable, hcur, startPage_reset (by omega), fun j hj hle => ?_⟩
    · rw [htable, hdesc, BootInfo.mappings, pageMappingsOf_length, hchunks, hcount]
    · rw [hdesc, hcount, maxSegments]
      omega
    · rw [hcur]
      exact Nat.zero_le _
    · rw [hbb j (by omega), hkb j (by omega), hgb]
      simp only [Bool.false_or, Bool.or_eq_false_iff, decide_eq_false_iff_not]
      omega
  have hbase : b.physicalBase / pageSize ≤ b.physicalBase := Nat.div_le_self _ _
  have hfirst : top < b.physicalBase / pageSize := ht
  have halloc := hclimb.ppAlloc_eq (by omega) (by omega) (by omega) (hclimb.search_zero hm hh)
  exact ⟨_, hsetup.trans halloc, hclimb.next (by omega) (by omega) ht⟩

/-- A machine whose kernel is loaded at the top of memory: a chunk below 1 MiB comes before the
chunk that starts there, so both windows begin at 1 MiB. -/
def highKernel : BootInfo where
  memmap := [
    ⟨0x1000, 0x9e000, .usable⟩, ⟨0x9f000, 0x1000, .acpiReclaimable⟩,
    ⟨0xa0000, 0x60000, .reserved⟩, ⟨0x100000, 0x100000, .bootloaderReclaimable⟩,
    ⟨0x200000, 0x7fc00000, .usable⟩, ⟨0x7fe00000, 0x200000, .executableAndModules⟩]
  physicalBase := 0x7fe00000
  virtualBase := 0xffffffff80000000
  executableFileSize := 0x100000
  pageBitmap := 0xffffffff80020000

theorem highKernel_descriptor : getMemoryDescriptor highKernel.memmap =
    .ok ⟨0x7fd9f000, 2, [⟨0x1000, 0xa0000⟩, ⟨0x100000, 0x7fe00000⟩]⟩ := rfl

theorem highKernel_mappings :
    highKernel.mappings = [⟨0x100000, 0, 4096⟩, ⟨0x100000, 160, 524448⟩] := rfl

theorem highKernel_admissible : Admissible highKernel where
  sorted := by decide
  physical := by decide
  aligned := by decide
  disjoint := by decide
  chunks := fun d hd => by
    rw [highKernel_descriptor] at hd
    cases hd
    decide

theorem highKernel_setup (ram : Nat → BitVec 8) :
    ∃ s, setupPmm highKernel ram = .ok (0x102000, s) ∧ Climb highKernel s 2 4096 :=
  setupPmm_climb highKernel_descriptor rfl (by decide) (by decide) (by decide) (by decide)
    (by decide) (by decide) highKernel_mappings rfl (by decide) (by decide) (by decide)

/-- The kernel is loaded at 1 MiB, where the window of the chunk below it begins. -/
def lowKernel : BootInfo where
  memmap := [
    ⟨0x1000, 0x9e000, .usable⟩, ⟨0x9f000, 0x61000, .reserved⟩,
    ⟨0x100000, 0x200000, .executableAndModules⟩, ⟨0x300000, 0x7d00000, .usable⟩]
  physicalBase := 0x100000
  virtualBase := 0xffffffff80000000
  executableFileSize := 0x100000
  pageBitmap := 0xffffffff80020000

theorem lowKernel_descriptor : getMemoryDescriptor lowKernel.memmap =
    .ok ⟨0x7d9e000, 2, [⟨0x1000, 0x9f000⟩, ⟨0x300000, 0x8000000⟩]⟩ := rfl

theorem lowKernel_mappings :
    lowKernel.mappings = [⟨0x100000, 0, 4096⟩, ⟨0x300000, 159, 32927⟩] := rfl

theorem lowKernel_admissible : Admissible lowKernel where
  sorted := by decide
  physical := by decide
  aligned := by decide
  disjoint := by decide
  chunks := fun d hd => by
    rw [lowKernel_descriptor] at hd
    cases hd
    decide

theorem lowKernel_setup (ram : Nat → BitVec 8) :
    ∃ s, setupPmm lowKernel ram = .ok (0x102000, s) ∧ Climb lowKernel s 2 3 :=
  setupPmm_climb lowKernel_descriptor rfl (by decide) (by decide) (by decide) (by decide)
    (by decide) (by decide) lowKernel_mappings rfl (by decide) (by decide) (by decide)

/-- One chunk above 1 MiB, of a whole number of 4096-page units. -/
def oneChunk : BootInfo where
  memmap := [⟨0x1000000, 0x10000000, .usable⟩, ⟨0x7fe00000, 0x200000, .executableAndModules⟩]
  physicalBase := 0x7fe00000
  virtualBase := 0xffffffff80000000
  executableFileSize := 0x100000
  pageBitmap := 0xffffffff80020000

theorem oneChunk_descriptor : getMemoryDescriptor oneChunk.memmap =
    .ok ⟨0x10000000, 1, [⟨0x1000000, 0x11000000⟩]⟩ := rfl

theorem oneChunk_mappings : oneChunk.mappings = [⟨0x1000000, 0, 65536⟩] := rfl

theorem oneChunk_admissible : Admissible oneChunk where
  sorted := by decide
  physical := by decide
  aligned := by decide
  disjoint := by decide
  chunks := fun d hd => by
    rw [oneChunk_descriptor] at hd
    cases hd
    decide

theorem oneChunk_setup (ram : Nat → BitVec 8) :
    ∃ s, setupPmm oneChunk ram = .ok (0x1002000, s) ∧ Climb oneChunk s 2 65535 :=
  setupPmm_climb oneChunk_descriptor rfl (by decide) (by decide) (by decide) (by decide)
    (by decide) (by decide) oneChunk_mappings rfl (by decide) (by decide) (by decide)

/-- Two chunks above 1 MiB, the first of 4096 pages: no window holds the indices 4096 and 4097. -/
def twoChunks : BootInfo where
  memmap := [
    ⟨0x1000000, 0x1000000, .usable⟩, ⟨0x2000000, 0x1000000, .reserved⟩,
    ⟨0x3000000, 0x10000000, .usable⟩, ⟨0x7fe00000, 0x200000, .executableAndModules⟩]
  physicalBase := 0x7fe00000
  virtualBase := 0xffffffff80000000
  executableFileSize := 0x100000
  pageBitmap := 0xffffffff80020000

theorem twoChunks_descriptor : getMemoryDescriptor twoChunks.memmap =
    .ok ⟨0x11000000, 2, [⟨0x1000000, 0x2000000⟩, ⟨0x3000000, 0x13000000⟩]⟩ := rfl

theorem twoChunks_mappings :
    twoChunks.mappings = [⟨0x1000000, 0, 4096⟩, ⟨0x3000000, 4097, 69633⟩] := rfl

theorem twoChunks_window (hm : m ∈ twoChunks.mappings) :
    m = ⟨0x1000000, 0, 4096⟩ ∨ m = ⟨0x3000000, 4097, 69633⟩ := by
  rw [twoChunks_mappings] at hm
  simpa using hm

theorem twoChunks_admissible : Admissible twoChunks where
  sorted := by decide
  physical := by decide
  aligned := by decide
  disjoint := by decide
  chunks := fun d hd => by
    rw [twoChunks_descriptor] at hd
    cases hd
    decide

theorem twoChunks_setup (ram : Nat → BitVec 8) :
    ∃ s, setupPmm twoChunks ram = .ok (0x1002000, s) ∧ Climb twoChunks s 2 4098 :=
  setupPmm_climb twoChunks_descriptor rfl (by decide) (by decide) (by decide) (by decide)
    (by decide) (by decide) twoChunks_mappings rfl (by decide) (by decide) (by decide)

end AdaOS
