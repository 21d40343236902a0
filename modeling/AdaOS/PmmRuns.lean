import AdaOS.PmmSteps
import AdaOS.MemoryChunks

namespace AdaOS
set_option autoImplicit true

/-- The page numbers `setup_pmm` reserves, which it uses as page indices. -/
def Reserved (b : BootInfo) (i : Nat) : Prop :=
  (b.kernelFirstPage ≤ i ∧ i ≤ b.kernelLastPage) ∨
    (b.bitmapFirstPage ≤ i ∧ i ≤ b.bitmapLastPage)

/-- Two windows of the table put the indices `i` and `j` at one address. -/
def Clash (b : BootInfo) (i j : Nat) : Prop :=
  ∃ m ∈ b.mappings, ∃ m' ∈ b.mappings,
    m.holdsIndex i = true ∧ m'.holdsIndex j = true ∧ m.ptrOf i = m'.ptrOf j

/-- The indices that can be clear in a run: those left unreserved, and those whose bit the
release of a page can hit because another window holds the address too. -/
inductive Drawable (b : BootInfo) : Nat → Prop where
  | unreserved : 1 ≤ i → i < maxPages → ¬Reserved b i → Drawable b i
  | released : Drawable b i → Clash b i j → 1 ≤ j → j < maxPages → Drawable b j

/-- A window of the table puts the drawable index `i` at address `p`. -/
def Placed (b : BootInfo) (i p : Nat) : Prop :=
  Drawable b i ∧ ∃ m ∈ b.mappings, m.holdsIndex i = true ∧ p = m.ptrOf i

/-- The bitmap bit a call of `pp_alloc` sets. -/
def SetBit (s s' : Pmm) (i : Nat) : Prop :=
  s.pageBitmap i = false ∧ s'.pageBitmap = Function.update s.pageBitmap i true

/-- Runs of the allocator. `live` lists the pointers handed out and not yet released, each with
the bit its `pp_alloc` set. `admits` restricts the states in which `pp_alloc` is called. -/
inductive PmmRun (b : BootInfo) (admits : Pmm → Prop) (s₀ : Pmm) (live₀ : List (Nat × Nat)) :
    Pmm → List (Nat × Nat) → Prop where
  | start : PmmRun b admits s₀ live₀ s₀ live₀
  | alloc : PmmRun b admits s₀ live₀ s live → admits s → ppAlloc b s = .ok (p, s') → p ≠ 0 →
      SetBit s s' i → PmmRun b admits s₀ live₀ s' ((p, i) :: live)
  | refused : PmmRun b admits s₀ live₀ s live → admits s → ppAlloc b s = .ok (0, s') →
      PmmRun b admits s₀ live₀ s' live
  | free : PmmRun b admits s₀ live₀ s live → e ∈ live → ppFree s e.1 = .ok s' →
      PmmRun b admits s₀ live₀ s' (live.erase e)
  | pageToPtr : PmmRun b admits s₀ live₀ s live → pageToPtr s i = .ok (p, s') →
      PmmRun b admits s₀ live₀ s' live
  | ptrToPage : PmmRun b admits s₀ live₀ s live → ptrToPage s p = .ok (i, s') →
      PmmRun b admits s₀ live₀ s' live

variable {b : BootInfo} {s s' s₀ s₁ : Pmm} {live live₀ : List (Nat × Nat)} {admits : Pmm → Prop}

theorem SetBit.unique (hi : SetBit s s' i) (hj : SetBit s s' j) : i = j := by
  by_contra hne
  have he := congrFun (hi.2.symm.trans hj.2) i
  rw [Function.update_self, Function.update_of_ne hne, hi.1] at he
  cases he

/-- The page `setup_pmm` takes for its self-test stays taken. -/
def heldBySetup (p : Nat) (s : Pmm) : List (Nat × Nat) :=
  if p = 0 then [] else [(p, s.lastPageUsed)]

/-- What holds in every run: the table is the one set up, only drawable bits are clear, and
every live pointer is where a window puts its index. -/
structure PmmInv (b : BootInfo) (s : Pmm) (live : List (Nat × Nat)) : Prop where
  ready : s.Ready
  table : s.pageMappings = b.mappings
  clear : ∀ i, ClearPage s i → Drawable b i
  live : ∀ e ∈ live, Placed b e.2 e.1

theorem PmmInv.move (h : PmmInv b s live) (hc : c ≤ s.desc.chunkCount + 1) :
    PmmInv b { s with lastUsedMapping := c } live :=
  ⟨⟨h.ready.slots, h.ready.room, hc⟩, h.table, h.clear, h.live⟩

theorem PmmInv.located (h : PmmInv b s live) (hi : ClearPage s i) (hl : Located s i p)
    (hp : p ≠ 0) : Placed b i p := by
  rcases hl with ⟨m, hm, hh, rfl⟩ | ⟨_, rfl⟩
  · exact ⟨h.clear i hi, m, h.table ▸ hm, hh, rfl⟩
  · exact (hp rfl).elim

theorem PmmInv.taken (h : PmmInv b s live) (hc : c ≤ s.desc.chunkCount + 1) :
    PmmInv b (s.taken i c p) live := by
  refine ⟨⟨h.ready.slots, h.ready.room, hc⟩, h.table, fun k hk => ?_, h.live⟩
  obtain ⟨hk₁, hk₂, hk₃⟩ := hk
  simp only [Pmm.taken, Function.update_apply] at hk₃
  split at hk₃
  · cases hk₃
  · exact h.clear k ⟨hk₁, hk₂, hk₃⟩

theorem PmmInv.alloc (h : PmmInv b s live) (ha : ppAlloc b s = .ok (p, s')) (hp : p ≠ 0) :
    ∃ i, ClearPage s i ∧ SetBit s s' i ∧ s'.lastPageUsed = i ∧ Placed b i p ∧
      PmmInv b s' ((p, i) :: live) := by
  obtain ⟨i, _, hi, ⟨_, rfl, _⟩ | ⟨c, hc, rfl, hl⟩⟩ := ppAlloc_cases h.ready ha
  · exact (hp rfl).elim
  · have hpl := h.located hi hl hp
    have ht := h.taken (i := i) (p := p) hc
    exact ⟨i, hi, ⟨hi.2.2, rfl⟩, rfl, hpl, ht.ready, ht.table, ht.clear,
      List.forall_mem_cons.2 ⟨hpl, h.live⟩⟩

theorem PmmInv.refused (h : PmmInv b s live) (ha : ppAlloc b s = .ok (0, s')) :
    PmmInv b s' live := by
  obtain ⟨i, _, hi, ⟨_, _, rfl⟩ | ⟨c, hc, rfl, _⟩⟩ := ppAlloc_cases h.ready ha
  · exact ⟨⟨h.ready.slots, h.ready.room, h.ready.cursor⟩, h.table, h.clear, h.live⟩
  · exact h.taken hc

theorem PmmInv.after_pageToPtr (h : PmmInv b s live) (ha : pageToPtr s i = .ok (p, s')) :
    PmmInv b s' live := by
  obtain ⟨c, hc, rfl⟩ := pageToPtr_moves h.ready ha
  exact h.move hc

theorem PmmInv.after_ptrToPage (h : PmmInv b s live) (ha : ptrToPage s p = .ok (i, s')) :
    PmmInv b s' live := by
  obtain ⟨c, hc, rfl⟩ := ptrToPage_moves h.ready ha
  exact h.move hc

theorem PmmInv.cleared (h : PmmInv b s live) (hi : i < maxPages → 1 ≤ i → Drawable b i)
    (ha : ppFreeIndex s i = .ok s') : PmmInv b s' live := by
  rcases ppFreeIndex_ok ha with ⟨rfl, _⟩ | ⟨hlt, _, rfl⟩
  · exact h
  · refine ⟨⟨h.ready.slots, h.ready.room, h.ready.cursor⟩, h.table, ?_, h.live⟩
    intro k hk
    obtain ⟨hk₁, hk₂, hk₃⟩ := hk
    by_cases hki : k = i
    · subst hki
      exact hi hlt hk₁
    · simp only [Function.update_of_ne hki] at hk₃
      exact h.clear k ⟨hk₁, hk₂, hk₃⟩

theorem PmmInv.erase (h : PmmInv b s live) : PmmInv b s (live.erase e) :=
  ⟨h.ready, h.table, h.clear, fun x hx => h.live x (List.mem_of_mem_erase hx)⟩

theorem Admissible.placed_facts (hb : Admissible b) (hp : Placed b i p) :
    p % pageSize = 0 ∧ 0x100000 < p := by
  obtain ⟨_, m, hm, hh, rfl⟩ := hp
  have hr := hb.mapping_regular m hm
  exact ⟨hr.ptrOf_aligned hh, hr.low_lt_ptrOf hh⟩

theorem PmmInv.live_ptrToPage (hb : Admissible b) (h : PmmInv b s live) (he : (p, i) ∈ live) :
    ∃ j, ∃ c ≤ s.desc.chunkCount + 1, Clash b i j ∧ 1 ≤ j ∧
      ptrToPage s p = .ok (j, { s with lastUsedMapping := c }) := by
  have hpl := h.live _ he
  obtain ⟨ha, hlow⟩ := hb.placed_facts hpl
  obtain ⟨_, m, hm, hh, hpm⟩ := hpl
  obtain ⟨j, c, hc, hj, ⟨m', hm', hh', rfl⟩ | ⟨hno, _⟩⟩ :=
    ptrToPage_cases h.ready (Nat.ne_of_gt (Nat.zero_lt_of_lt hlow)) ha
  · rw [h.table] at hm'
    obtain ⟨hi', hp'⟩ := (hb.mapping_regular m' hm').ptrOf_indexOf hh' ha
    refine ⟨_, c, hc, ⟨m, hm, m', hm', hh, hi', ?_⟩, ?_, hj⟩
    · exact hpm.symm.trans hp'.symm
    · exact Nat.succ_le_of_lt (Nat.zero_lt_of_lt (holdsIndex_iff.1 hi').1)
  · have hr := (hb.mapping_regular m hm).holdsPtr_ptrOf hh
    rw [h.table] at hno
    have hf := hno m hm
    simp only at hpm
    rw [hpm, hr] at hf
    cases hf

theorem PmmInv.free (hb : Admissible b) (h : PmmInv b s live) (he : e ∈ live)
    (hf : ppFree s e.1 = .ok s') : PmmInv b s' (live.erase e) := by
  obtain ⟨j, c, hc, hcl, hj, hp⟩ := h.live_ptrToPage hb (p := e.1) (i := e.2) he
  obtain ⟨⟨j', s₁⟩, hp', hf⟩ := bind_ok hf
  rw [hp] at hp'
  cases hp'
  have hd := (h.live e he).1
  exact ((h.move hc).cleared (fun hlt _ => .released hd hcl hj hlt) hf).erase

/-- The invariant of the allocator holds along every run, whatever the memory map. -/
theorem PmmRun.inv (hb : Admissible b) (h₀ : PmmInv b s₀ live₀)
    (hr : PmmRun b admits s₀ live₀ s live) : PmmInv b s live := by
  induction hr with
  | start => exact h₀
  | alloc _ _ ha hp hi ih =>
    obtain ⟨j, _, hj, _, _, hinv⟩ := ih.alloc ha hp
    rw [hi.unique hj]
    exact hinv
  | refused _ _ ha ih => exact ih.refused ha
  | free _ he hf ih => exact ih.free hb he hf
  | pageToPtr _ ha ih => exact ih.after_pageToPtr ha
  | ptrToPage _ ha ih => exact ih.after_ptrToPage ha

theorem reservePages_ok (h : reservePages s i n = .ok s') :
    s'.pageMappings = s.pageMappings ∧ s'.desc = s.desc ∧
      s'.lastUsedMapping = s.lastUsedMapping ∧
      ∀ k, k < maxPages → s'.pageBitmap k = (s.pageBitmap k || decide (i ≤ k ∧ k < i + n)) := by
  induction n generalizing s i with
  | zero =>
    cases h
    refine ⟨rfl, rfl, rfl, fun k _ => ?_⟩
    simp [show ¬(i ≤ k ∧ k < i) by omega]
  | succ n ih =>
    rw [reservePages] at h
    split at h
    · obtain ⟨free, hf, h⟩ := bind_ok h
      obtain ⟨hlt, rfl⟩ := pageFree_ok hf
      obtain ⟨mid, hmid, h⟩ := bind_ok h
      rw [setUsed_eq hlt] at hmid
      cases hmid
      obtain ⟨hm, hd, hc, hbits⟩ := ih h
      refine ⟨hm.trans (by split <;> rfl), hd.trans (by split <;> rfl),
        hc.trans (by split <;> rfl), fun k hk => ?_⟩
      rw [hbits k hk]
      by_cases hki : k = i
      · subst hki
        simp
      · simp only [Function.update_of_ne hki]
        have hiff : (i + 1 ≤ k ∧ k < i + 1 + n) ↔ (i ≤ k ∧ k < i + (n + 1)) := by omega
        simp only [hiff]
        split <;> rfl
    · next hbig =>
      obtain ⟨hm, hd, hc, hbits⟩ := ih h
      refine ⟨hm, hd, hc, fun k hk => ?_⟩
      have hiff : (i + 1 ≤ k ∧ k < i + 1 + n) ↔ (i ≤ k ∧ k < i + (n + 1)) := by omega
      rw [hbits k hk]
      simp only [hiff]

/-- `setup_pmm` up to its first call of `pp_alloc`. -/
def reservePmm (b : BootInfo) (ram : Nat → BitVec 8) : Except Fault Pmm := do
  let desc ← getMemoryDescriptor b.memmap
  let s ← generatePageMapping { Pmm.initial ram with desc := desc }
  let s ← reservePages s b.kernelFirstPage (b.kernelLastPage + 1 - b.kernelFirstPage)
  reservePages s b.bitmapFirstPage (b.bitmapLastPage + 1 - b.bitmapFirstPage)

theorem setupPmm_eq (b : BootInfo) (ram : Nat → BitVec 8) :
    setupPmm b ram = reservePmm b ram >>= ppAlloc b := by
  rw [setupPmm, reservePmm]
  simp only [bind_assoc]

theorem reservePmm_inv (hb : FewChunks b) (h : reservePmm b ram = .ok s₁) : PmmInv b s₁ [] := by
  obtain ⟨d, hd, h⟩ := bind_ok h
  obtain ⟨s₂, hg, h⟩ := bind_ok h
  obtain ⟨s₃, hk, hm⟩ := bind_ok h
  obtain ⟨hchunks, hcount, hle⟩ := hb.chunks_eq hd
  have htake : d.chunkPtr.take d.chunkCount = d.chunkPtr := by rw [hcount, List.take_length]
  rw [generatePageMapping] at hg
  simp only [htake] at hg
  rw [if_pos (by simp only [maxSegments]; omega)] at hg
  cases hg
  obtain ⟨hkm, hkd, hkc, hkb⟩ := reservePages_ok hk
  obtain ⟨hmm, hmd, hmc, hmb⟩ := reservePages_ok hm
  have htable : s₁.pageMappings = b.mappings := by
    rw [hmm, hkm, BootInfo.mappings, hchunks]
  have hdesc : s₁.desc = d := hmd.trans hkd
  refine ⟨⟨?_, ?_, ?_⟩, htable, ?_, fun e he => nomatch he⟩
  · rw [htable, hdesc, BootInfo.mappings, pageMappingsOf_length, hchunks, hcount]
  · rw [hdesc, hcount, maxSegments]
    omega
  · rw [hmc, hkc]
    exact Nat.zero_le _
  · rintro i ⟨hi, hlt, hclear⟩
    refine .unreserved hi hlt fun hres => ?_
    rw [hmb i hlt, hkb i hlt, Bool.or_eq_false_iff, Bool.or_eq_false_iff] at hclear
    simp only [decide_eq_false_iff_not] at hclear
    rcases hres with hres | hres <;> omega

theorem setupPmm_ok (hb : FewChunks b) (h : setupPmm b ram = .ok (p, s)) :
    ∃ s₁, ppAlloc b s₁ = .ok (p, s) ∧ PmmInv b s₁ [] := by
  rw [setupPmm_eq] at h
  obtain ⟨s₁, hr, ha⟩ := bind_ok h
  exact ⟨s₁, ha, reservePmm_inv hb hr⟩

theorem setupPmm_inv (hb : Admissible b) (h : setupPmm b ram = .ok (p, s)) :
    PmmInv b s (heldBySetup p s) := by
  obtain ⟨s₁, ha, hinv⟩ := setupPmm_ok hb.chunks h
  by_cases hp : p = 0
  · subst hp
    exact hinv.refused ha
  · obtain ⟨i, _, _, hi, _, hinv'⟩ := hinv.alloc ha hp
    rw [heldBySetup, if_neg hp, hi]
    exact hinv'

theorem PmmInv.sublist (h : PmmInv b s live) (hl : ∀ e ∈ live₀, e ∈ live) : PmmInv b s live₀ :=
  ⟨h.ready, h.table, h.clear, fun e he => h.live e (hl e he)⟩

theorem setupPmm_inv_nil (hb : Admissible b) (h : setupPmm b ram = .ok (p, s)) :
    PmmInv b s [] :=
  (setupPmm_inv hb h).sublist fun _ he => nomatch he

end AdaOS
