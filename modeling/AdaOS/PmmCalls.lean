import AdaOS.PmmRuns

namespace AdaOS
set_option autoImplicit true

/-- The functions of `pmm.h` the rest of the kernel can call, with any argument. -/
inductive PmmCall where
  | ppAlloc
  | ppAllocIndex (pageIndex : Nat)
  | ppFree (ptr : Nat)
  | ppFreeIndex (pageIndex : Nat)
  | pageToPtr (pageIndex : Nat)
  | ptrToPage (ptr : Nat)
  | getFreePage
  deriving DecidableEq, Repr

def PmmCall.run (b : BootInfo) (s : Pmm) : PmmCall → Except Fault Pmm
  | .ppAlloc => (AdaOS.ppAlloc b s).map Prod.snd
  | .ppAllocIndex i => (AdaOS.ppAllocIndex b s i).map Prod.snd
  | .ppFree p => AdaOS.ppFree s p
  | .ppFreeIndex i => AdaOS.ppFreeIndex s i
  | .pageToPtr i => (AdaOS.pageToPtr s i).map Prod.snd
  | .ptrToPage p => (AdaOS.ptrToPage s p).map Prod.snd
  | .getFreePage => (AdaOS.getFreePage b s).map Prod.snd

/-- Any sequence of calls. -/
inductive PmmCalls (b : BootInfo) (s₀ : Pmm) : Pmm → Prop where
  | start : PmmCalls b s₀ s₀
  | call : PmmCalls b s₀ s → PmmCall.run b s c = .ok s' → PmmCalls b s₀ s'

variable {b : BootInfo} {s s' s₀ : Pmm}

theorem PmmCalls.trans (hr : PmmCalls b s₀ s) (hr' : PmmCalls b s s') : PmmCalls b s₀ s' := by
  induction hr' with
  | start => exact hr
  | call _ hc ih => exact ih.call hc

theorem map_ok {x : Except ε α} {f : α → β} (h : x.map f = .ok r) : ∃ a, x = .ok a ∧ f a = r := by
  cases x with
  | error e => cases h
  | ok a =>
    cases h
    exact ⟨a, rfl, rfl⟩

/-- The table of mappings is the one of `b`, with the cursor on it. -/
structure Pmm.Tabled (b : BootInfo) (s : Pmm) : Prop where
  ready : s.Ready
  table : s.pageMappings = b.mappings

theorem Pmm.Tabled.of_eq (h : s.Tabled b) (hm : s'.pageMappings = s.pageMappings)
    (hd : s'.desc = s.desc) (hc : s'.lastUsedMapping ≤ s.desc.chunkCount + 1) : s'.Tabled b := by
  refine ⟨⟨?_, ?_, ?_⟩, hm.trans h.table⟩
  · rw [hm, hd]
    exact h.ready.slots
  · rw [hd]
    exact h.ready.room
  · rw [hd]
    exact hc

theorem Pmm.Tabled.ppAllocIndex (h : s.Tabled b) (ha : ppAllocIndex b s i = .ok (p, s')) :
    s'.Tabled b := by
  rcases ppAllocIndex_cases h.ready ha with ⟨_, rfl, _⟩ | ⟨_, _, _, c, hc, rfl, _⟩
  · exact h
  · exact h.of_eq rfl rfl hc

theorem Pmm.Tabled.getFreePage (h : s.Tabled b) (ha : getFreePage b s = .ok (i, s')) :
    s'.Tabled b := by
  obtain ⟨_, rfl⟩ := getFreePage_ok ha
  exact h.of_eq rfl rfl h.ready.cursor

theorem Pmm.Tabled.ppAlloc (h : s.Tabled b) (ha : ppAlloc b s = .ok (p, s')) : s'.Tabled b := by
  obtain ⟨⟨i, s₁⟩, hg, ha⟩ := bind_ok ha
  exact (h.getFreePage hg).ppAllocIndex ha

theorem Pmm.Tabled.ppFreeIndex (h : s.Tabled b) (ha : ppFreeIndex s i = .ok s') :
    s'.Tabled b := by
  rcases ppFreeIndex_ok ha with ⟨rfl, _⟩ | ⟨_, _, rfl⟩
  · exact h
  · exact h.of_eq rfl rfl h.ready.cursor

theorem Pmm.Tabled.pageToPtr (h : s.Tabled b) (ha : pageToPtr s i = .ok (p, s')) :
    s'.Tabled b := by
  obtain ⟨c, hc, rfl⟩ := pageToPtr_moves h.ready ha
  exact h.of_eq rfl rfl hc

theorem Pmm.Tabled.ptrToPage (h : s.Tabled b) (ha : ptrToPage s p = .ok (i, s')) :
    s'.Tabled b := by
  obtain ⟨c, hc, rfl⟩ := ptrToPage_moves h.ready ha
  exact h.of_eq rfl rfl hc

theorem Pmm.Tabled.call (h : s.Tabled b) (c : PmmCall) (hc : c.run b s = .ok s') :
    s'.Tabled b := by
  cases c with
  | ppAlloc =>
    obtain ⟨_, ha, rfl⟩ := map_ok hc
    exact h.ppAlloc ha
  | ppAllocIndex i =>
    obtain ⟨_, ha, rfl⟩ := map_ok hc
    exact h.ppAllocIndex ha
  | ppFree p =>
    obtain ⟨_, hp, hf⟩ := bind_ok hc
    exact (h.ptrToPage hp).ppFreeIndex hf
  | ppFreeIndex i => exact h.ppFreeIndex hc
  | pageToPtr i =>
    obtain ⟨_, ha, rfl⟩ := map_ok hc
    exact h.pageToPtr ha
  | ptrToPage p =>
    obtain ⟨_, ha, rfl⟩ := map_ok hc
    exact h.ptrToPage ha
  | getFreePage =>
    obtain ⟨_, ha, rfl⟩ := map_ok hc
    exact h.getFreePage ha

theorem PmmCalls.tabled (hr : PmmCalls b s₀ s) (h₀ : s₀.Tabled b) : s.Tabled b := by
  induction hr with
  | start => exact h₀
  | @call s c s' _ hc ih => exact ih.call c hc

theorem setupPmm_tabled (hb : FewChunks b) (h : setupPmm b ram = .ok (p, s)) : s.Tabled b := by
  obtain ⟨s₁, ha, hinv⟩ := setupPmm_ok hb h
  have h₁ : s₁.Tabled b := ⟨hinv.ready, hinv.table⟩
  exact h₁.ppAlloc ha

end AdaOS
