import AdaOS.PmmCalls
import AdaOS.Translation

namespace AdaOS
set_option autoImplicit true

variable {b : BootInfo} {s s' s₀ : Pmm}

/-- The index next in turn: the one after the cursor if its bit is clear, and otherwise the
lowest clear one. -/
def NextFree (b : BootInfo) (s : Pmm) (i : Nat) : Prop :=
  startPage b s + 1 < maxPages ∧ i < maxPages ∧ s.pageBitmap i = false ∧
    (i = startPage b s + 1 ∨ s.pageBitmap (startPage b s + 1) = true ∧ 1 ≤ i ∧
      ∀ j, 1 ≤ j → j < i → s.pageBitmap j = true)

theorem getFreePage_iff : (∃ s', getFreePage b s = .ok (i, s')) ↔ NextFree b s i := by
  rw [getFreePage, NextFree]
  by_cases hlt : startPage b s + 1 < maxPages
  · simp only [bind_of_ok (pageFree_eq hlt)]
    cases hb : s.pageBitmap (startPage b s + 1) with
    | false =>
      simp only [Bool.not_false, ↓reduceIte]
      constructor
      · rintro ⟨s', h⟩
        cases h
        exact ⟨hlt, hlt, hb, .inl rfl⟩
      · rintro ⟨_, _, _, rfl | ⟨hset, _⟩⟩
        · exact ⟨_, rfl⟩
        · cases hset
    | true =>
      simp only [Bool.not_true, Bool.false_eq_true, ↓reduceIte]
      constructor
      · rintro ⟨s', h⟩
        obtain ⟨r, hr, h⟩ := bind_ok h
        cases r with
        | none => cases h
        | some j =>
          cases h
          obtain ⟨hle, _, hi, hclear, hset⟩ := scanFree_iff.1 hr
          exact ⟨hlt, hi, hclear, .inr ⟨trivial, hle, hset⟩⟩
      · rintro ⟨_, hi, hclear, rfl | ⟨_, hle, hset⟩⟩
        · rw [hb] at hclear
          cases hclear
        · have hr := scanFree_iff.2 ⟨hle, show i < 1 + maxPages by omega, hi, hclear, hset⟩
          exact ⟨_, bind_of_ok hr _⟩
  · have hf : pageFree s (startPage b s + 1) = .error .outOfBounds :=
      if_neg (fun h => hlt (byte_lt_iff.1 h))
    simp only [hf]
    constructor
    · rintro ⟨s', h⟩
      cases h
    · exact fun h => absurd h.1 hlt

/-- What a failed allocation must leave alone: the bitmap, the counters and physical memory. -/
structure Untouched (s s' : Pmm) : Prop where
  bitmap : s'.pageBitmap = s.pageBitmap
  free : s'.freePages = s.freePages
  used : s'.usedPages = s.usedPages
  ram : s'.ram = s.ram

/-- An index `_pp_alloc` would mark is one the table has an address for. -/
def AllocGuarded (b : BootInfo) (s : Pmm) (i : Nat) : Prop :=
  i < b.physicalBase → i < maxPages → s.pageBitmap i = false →
    ∃ m ∈ s.pageMappings, m.holdsIndex i = true

theorem Located.ne_zero (hl : Located s i p) (hw : ∀ m ∈ s.pageMappings, m.Unwrapped)
    (hh : ∃ m ∈ s.pageMappings, m.holdsIndex i = true) : p ≠ 0 := by
  rcases hl with ⟨m, hm, hheld, rfl⟩ | ⟨hno, _⟩
  · exact Nat.ne_of_gt (Nat.zero_lt_of_lt ((hw m hm).lt_ptrOf hheld))
  · obtain ⟨m, hm, hheld⟩ := hh
    rw [hno m hm] at hheld
    cases hheld

theorem Located.held (hl : Located s i p) (hp : p ≠ 0) :
    ∃ m ∈ s.pageMappings, m.holdsIndex i = true := by
  rcases hl with ⟨m, hm, hh, _⟩ | ⟨_, rfl⟩
  · exact ⟨m, hm, hh⟩
  · exact (hp rfl).elim

theorem Pmm.Tabled.unwrapped (h : s.Tabled b) (hb : Manageable b) :
    ∀ m ∈ s.pageMappings, m.Unwrapped := by
  rw [h.table]
  exact hb.mapping_unwrapped

theorem Pmm.taken_touched (hi : s.pageBitmap i = false) : ¬Untouched s (s.taken i c p) := by
  intro hu
  have he := congrFun hu.bitmap i
  simp only [Pmm.taken, Function.update_self, hi] at he
  cases he

theorem ppAllocIndex_untouched_iff (hb : Manageable b) (h : s.Tabled b) :
    (∀ s', ppAllocIndex b s i = .ok (0, s') → Untouched s s') ↔ AllocGuarded b s i := by
  constructor
  · intro hu hbase hi hclear
    obtain ⟨p, c, _, he, hl⟩ := ppAllocIndex_located h.ready hbase hi hclear
    by_cases hp : p = 0
    · subst hp
      exact (Pmm.taken_touched hclear (hu _ he)).elim
    · exact hl.held hp
  · intro hg s' he
    rcases ppAllocIndex_cases h.ready he with ⟨_, rfl, _⟩ | ⟨hbase, hi, hclear, c, _, _, hl⟩
    · exact ⟨rfl, rfl, rfl, rfl⟩
    · exact (hl.ne_zero (h.unwrapped hb) (hg hbase hi hclear) rfl).elim

theorem ppAlloc_eq (hg : getFreePage b s = .ok (i, s')) : ppAlloc b s = ppAllocIndex b s' i := by
  rw [ppAlloc, hg]
  rfl

theorem NextFree.ppAlloc_eq (hn : NextFree b s i) :
    ppAlloc b s = ppAllocIndex b { s with lastPageUsed := i } i := by
  obtain ⟨s', hg⟩ := getFreePage_iff.2 hn
  obtain ⟨_, rfl⟩ := getFreePage_ok hg
  exact AdaOS.ppAlloc_eq hg

theorem ppAlloc_next (h : ppAlloc b s = .ok r) : ∃ i, NextFree b s i := by
  obtain ⟨⟨i, s'⟩, hg, _⟩ := bind_ok h
  exact ⟨i, getFreePage_iff.1 ⟨s', hg⟩⟩

theorem Pmm.Tabled.withLast (h : s.Tabled b) (i : Nat) :
    Pmm.Tabled b { s with lastPageUsed := i } := h.of_eq rfl rfl h.ready.cursor

theorem ppAlloc_untouched_iff (hb : Manageable b) (h : s.Tabled b) :
    (∀ s', ppAlloc b s = .ok (0, s') → Untouched s s') ↔
      ∀ i, NextFree b s i → AllocGuarded b s i := by
  constructor
  · intro hu i hn
    refine (ppAllocIndex_untouched_iff hb (h.withLast i)).1 fun s' he => ?_
    obtain ⟨h₁, h₂, h₃, h₄⟩ := hu s' (hn.ppAlloc_eq.trans he)
    exact ⟨h₁, h₂, h₃, h₄⟩
  · intro hg s' he
    obtain ⟨i, hn⟩ := ppAlloc_next he
    rw [hn.ppAlloc_eq] at he
    obtain ⟨h₁, h₂, h₃, h₄⟩ :=
      (ppAllocIndex_untouched_iff hb (h.withLast i)).2 (hg i hn) s' he
    exact ⟨h₁, h₂, h₃, h₄⟩

/-- A failed allocation changes nothing exactly when the page it picks, or is asked for, is
refused before it is marked, or has an address. -/
theorem failed_alloc_untouched_iff (hb : Manageable b) (hs : setupPmm b ram = .ok (p₀, s₀))
    (hr : PmmCalls b s₀ s) :
    (∀ i, (∀ s', ppAllocIndex b s i = .ok (0, s') → Untouched s s') ↔ AllocGuarded b s i) ∧
    ((∀ s', ppAlloc b s = .ok (0, s') → Untouched s s') ↔
      ∀ i, NextFree b s i → AllocGuarded b s i) := by
  have h := hr.tabled (setupPmm_tabled hb.few hs)
  exact ⟨fun i => ppAllocIndex_untouched_iff hb h, ppAlloc_untouched_iff hb h⟩

theorem Climb.nextFree (h : Climb b s k top) (hk : k < top) (ht : top < maxPages) :
    NextFree b s (k + 1) := by
  rw [NextFree, h.start]
  exact ⟨by omega, by omega, h.clear (k + 1) (Nat.lt_succ_self k) hk, .inl rfl⟩

/-- The page of index 3 is asked for when it is taken. -/
theorem failed_alloc_untouched_twoChunks : ∃ s₀ s s',
    setupPmm twoChunks (fun _ => 0) = .ok (0x1002000, s₀) ∧ PmmCalls twoChunks s₀ s ∧
      ppAllocIndex twoChunks s 3 = .ok (0, s') ∧ Untouched s s' := by
  obtain ⟨s₀, hs, hclimb⟩ := twoChunks_setup fun _ => 0
  have halloc := hclimb.ppAlloc_eq (by decide) (by decide) (by decide)
    (hclimb.search_zero twoChunks_mappings rfl)
  have hcall : PmmCalls twoChunks s₀ (s₀.taken 3 0 0x1003000) :=
    PmmCalls.start.call (c := .ppAlloc) (by rw [PmmCall.run, halloc]; rfl)
  have hset : (s₀.taken 3 0 0x1003000).pageBitmap 3 = true := by
    simp only [Pmm.taken, Function.update_self]
  have hrefused : ppAllocIndex twoChunks (s₀.taken 3 0 0x1003000) 3 =
      .ok (0, s₀.taken 3 0 0x1003000) := by
    rw [ppAllocIndex, if_neg (by decide), if_neg (by decide), pageFree_eq (by decide), hset]
    rfl
  have hguarded : AllocGuarded twoChunks (s₀.taken 3 0 0x1003000) 3 := by
    intro _ _ hclear
    cases hclear.symm.trans hset
  have hiff := (failed_alloc_untouched_iff twoChunks_admissible.manageable hs hcall).1 3
  exact ⟨s₀, _, _, hs, hcall, hrefused, hiff.2 hguarded _ hrefused⟩

/-- A page whose bit is clear and which the table has an address for. -/
def Usable (s : Pmm) (i : Nat) : Prop :=
  i < maxPages ∧ s.pageBitmap i = false ∧ ∃ p s', pageToPtr s i = .ok (p, s') ∧ p ≠ 0

theorem ppAlloc_nonnull_iff (hb : Manageable b) (h : s.Tabled b) :
    (∃ p s', ppAlloc b s = .ok (p, s') ∧ p ≠ 0) ↔
      ∃ i, NextFree b s i ∧ i < b.physicalBase ∧
        ∃ m ∈ s.pageMappings, m.holdsIndex i = true := by
  constructor
  · rintro ⟨p, s', he, hp⟩
    obtain ⟨i, hn⟩ := ppAlloc_next he
    rw [hn.ppAlloc_eq] at he
    rcases ppAllocIndex_cases (h.withLast i).ready he with
      ⟨rfl, _, _⟩ | ⟨hbase, _, _, _, _, _, hl⟩
    · exact (hp rfl).elim
    · exact ⟨i, hn, hbase, hl.held hp⟩
  · rintro ⟨i, hn, hbase, hheld⟩
    obtain ⟨p, c, _, he, hl⟩ := ppAllocIndex_located (h.withLast i).ready hbase hn.2.1 hn.2.2.1
    exact ⟨p, _, hn.ppAlloc_eq.trans he, hl.ne_zero (h.unwrapped hb) hheld⟩

/-- While usable pages remain `pp_alloc` returns one exactly when the index next in turn is
usable; it looks at no other. -/
theorem ppAlloc_serves_iff (hb : Manageable b) (hs : setupPmm b ram = .ok (p₀, s₀))
    (hr : PmmCalls b s₀ s) :
    ((∃ i, Usable s i) → ∃ p s', ppAlloc b s = .ok (p, s') ∧ p ≠ 0) ↔
      ((∃ i, Usable s i) → ∃ i, NextFree b s i ∧ i < b.physicalBase ∧
        ∃ m ∈ s.pageMappings, m.holdsIndex i = true) :=
  imp_congr_right fun _ => ppAlloc_nonnull_iff hb (hr.tabled (setupPmm_tabled hb.few hs))

theorem ppAlloc_serves_oneChunk : ∃ p₀ s₀, setupPmm oneChunk (fun _ => 0) = .ok (p₀, s₀) ∧
    ((∃ i, Usable s₀ i) → ∃ p s', ppAlloc oneChunk s₀ = .ok (p, s') ∧ p ≠ 0) := by
  obtain ⟨s₀, hs, hclimb⟩ := oneChunk_setup fun _ => 0
  have hb := oneChunk_admissible.manageable
  refine ⟨_, s₀, hs, (ppAlloc_serves_iff hb hs .start).2 fun _ =>
    ⟨3, hclimb.nextFree (by decide) (by decide), by decide, ?_⟩⟩
  rw [(setupPmm_tabled hb.few hs).table, oneChunk_mappings]
  exact ⟨_, List.mem_cons_self .., rfl⟩

theorem PmmRun.calls (hr : PmmRun b admits s₀ live₀ s live) : PmmCalls b s₀ s := by
  induction hr with
  | start => exact .start
  | alloc _ _ ha _ _ ih => exact ih.call (c := .ppAlloc) (by rw [PmmCall.run, ha]; rfl)
  | refused _ _ ha ih => exact ih.call (c := .ppAlloc) (by rw [PmmCall.run, ha]; rfl)
  | free _ _ hf ih => exact ih.call (c := .ppFree _) hf
  | @pageToPtr _ _ i _ _ _ ha ih => exact ih.call (c := .pageToPtr i) (by rw [PmmCall.run, ha]; rfl)
  | @ptrToPage _ _ p _ _ _ ha ih => exact ih.call (c := .ptrToPage p) (by rw [PmmCall.run, ha]; rfl)

theorem twoChunks_gap (h : s.Tabled twoChunks) (hclear : s.pageBitmap 4096 = false) :
    ∃ c, ppAllocIndex twoChunks s 4096 = .ok (0, s.taken 4096 c 0) := by
  obtain ⟨p, c, _, he, hl⟩ :=
    ppAllocIndex_located (b := twoChunks) h.ready (by decide) (by decide) hclear
  have hno : ∀ m ∈ s.pageMappings, m.holdsIndex 4096 = false := by
    rw [h.table, twoChunks_mappings]
    decide
  rcases hl with ⟨m, hm, hh, _⟩ | ⟨_, rfl⟩
  · rw [hno m hm] at hh
    cases hh
  · exact ⟨c, he⟩

/-- With the map of `twoChunks` a call of `_pp_alloc` for index 4096 returns null with the page
marked, counted and the first page of memory cleared. -/
theorem twoChunks_marked : ∃ p₀ s₀ s', setupPmm twoChunks (fun _ => 1) = .ok (p₀, s₀) ∧
    ppAllocIndex twoChunks s₀ 4096 = .ok (0, s') ∧
    s₀.pageBitmap 4096 = false ∧ s'.pageBitmap 4096 = true ∧
    s'.usedPages = s₀.usedPages + 1 ∧ s'.freePages = s₀.freePages - 1 ∧
    s'.ram = clearPage s₀.ram 0 := by
  obtain ⟨s₀, hs, hclimb⟩ := twoChunks_setup fun _ => 1
  have h := setupPmm_tabled twoChunks_admissible.manageable.few hs
  have hclear := hclimb.clear 4096 (by decide) (by decide)
  obtain ⟨c, he⟩ := twoChunks_gap h hclear
  refine ⟨_, s₀, _, hs, he, hclear, ?_, rfl, rfl, rfl⟩
  simp only [Pmm.taken, Function.update_self]

/-- After 4093 pages `pp_alloc` comes to index 4096 and returns null, though index 4098 and all
those after it are usable. -/
theorem twoChunks_refused : ∃ p₀ s₀ s s', setupPmm twoChunks (fun _ => 0) = .ok (p₀, s₀) ∧
    PmmCalls twoChunks s₀ s ∧ Usable s 4098 ∧ ppAlloc twoChunks s = .ok (0, s') := by
  obtain ⟨s₀, hs, hclimb⟩ := twoChunks_setup fun _ => 0
  have hb := twoChunks_admissible.manageable
  have hm₀ := twoChunks_admissible.mapping_regular ⟨0x1000000, 0, 4096⟩
    (by rw [twoChunks_mappings]; exact List.mem_cons_self ..)
  have hstart : PmmRun twoChunks (fun _ => True) s₀ [] s₀ [] := .start
  obtain ⟨s, live, hr, hlast, _, _⟩ := hclimb.run hstart twoChunks_mappings hm₀ 4093
    (by decide) (by decide) (by decide) (fun i hi hle =>
      holdsIndex_iff.2 ⟨Nat.zero_lt_of_lt hi, Nat.lt_succ_of_le hle⟩)
  have h := hr.calls.tabled (setupPmm_tabled hb.few hs)
  obtain ⟨c, he⟩ := twoChunks_gap (h.withLast 4096) (hlast.clear 4096 (by decide) (by decide))
  have halloc := (ppAlloc_eq (hlast.getFreePage_eq (by decide) (by decide))).trans he
  obtain ⟨p, c', _, hp, hne⟩ := pageToPtr_complete h.ready (h.unwrapped hb) 4098
  refine ⟨_, s₀, s, _, hs, hr.calls,
    ⟨by decide, hlast.clear 4098 (by decide) (by decide), p, _, hp, ?_⟩, halloc⟩
  refine hne.2 ⟨by decide, ⟨0x3000000, 4097, 69633⟩, ?_, by decide⟩
  rw [h.table, twoChunks_mappings]
  decide

end AdaOS
