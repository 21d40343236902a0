import AdaOS.HeapSupply

namespace AdaOS
set_option autoImplicit true
open ByteMem Blocks

/-- The next call of `pp_alloc` returns `NULL`. -/
def FrameAllocator.Refuses (A : FrameAllocator σ) (s : σ) : Prop :=
  ∃ s', A.alloc s = .ok (none, s')

/-- A call that got `frames` for the heap's data took nothing: of the frames held for data and
those it got, it holds the ones held before, and the heap and its pages are as they were. -/
structure TookNothing (A : FrameAllocator σ) (frames : List (BitVec 64)) (h h' : Heap σ) :
    Prop where
  data : ∀ data ⊆ A.held h.vmm.frames,
    (data ∪ frames.toFinset) ∩ A.held h'.vmm.frames = data
  size : h'.heapSize = h.heapSize
  head : h'.freeListHead = h.freeListHead
  freeList : ∀ l, h'.FreeList l ↔ h.FreeList l
  translate : ∀ a, h.heapStart ≤ a → h'.vmm.translate h'.pml4 (BitVec.ofNat 64 a) =
    h.vmm.translate h.pml4 (BitVec.ofNat 64 a)

variable {σ : Type} {A : FrameAllocator σ} {h h' : Heap σ}

/-- The page loop gives nothing back, and the frames it gets are new. -/
theorem growLoop_held (h₀ : growLoop A virt n h = .ok (r, h')) :
    A.held h.vmm.frames ⊆ A.held h'.vmm.frames ∧
      ∀ f ∈ growFrames A virt n h, f ∉ A.held h.vmm.frames ∧ f ∈ A.held h'.vmm.frames := by
  induction n generalizing virt h with
  | zero =>
    cases h₀
    exact ⟨Finset.Subset.refl _, List.forall_mem_nil _⟩
  | succ n ih =>
    obtain ⟨⟨x, w⟩, ha, h₀⟩ := bind_ok h₀
    rw [growFrames, ha]
    rcases Vmm.ppAlloc_cases ha with ⟨rfl, hr⟩ | ⟨f, rfl, hc⟩
    · cases h₀
      exact ⟨hr.held.symm.subset, List.forall_mem_nil _⟩
    · obtain ⟨⟨y, u⟩, hm, h₀⟩ := bind_ok h₀
      cases y with
      | false => cases h₀
      | true =>
        obtain ⟨hrest, hframes⟩ := ih h₀
        have hw : A.held w.frames ⊆ A.held h'.vmm.frames := (mapPage_held hm).trans hrest
        have hold : A.held h.vmm.frames ⊆ A.held w.frames := by
          rw [hc.held]
          exact Finset.subset_insert ..
        have hnew : f.addr ∈ A.held w.frames := by
          rw [hc.held]
          exact Finset.mem_insert_self ..
        refine ⟨hold.trans hw, ?_⟩
        dsimp only
        rw [hm]
        intro g hg
        rcases List.mem_cons.1 hg with rfl | hg
        · exact ⟨hc.fresh, hw hnew⟩
        · obtain ⟨hfresh, hheld⟩ := hframes g hg
          exact ⟨fun hno => hfresh (mapPage_held hm (hold hno)), hheld⟩

theorem TookNothing.refl : TookNothing A [] h h := by
  refine ⟨?_, rfl, rfl, fun _ => Iff.rfl, fun _ _ => rfl⟩
  intro data hdata
  rw [List.toFinset_nil, Finset.union_empty]
  exact Finset.inter_eq_left.2 hdata

theorem growLoop_refuses (hr : A.Refuses h.vmm.frames) (virt n : Nat) :
    ∃ w, growLoop A virt (n + 1) h = .ok (false, { h with vmm := w }) ∧ Refused A h.vmm w ∧
      growFrames A virt (n + 1) h = [] := by
  obtain ⟨s, ha⟩ := hr
  have hp : ∃ w, h.vmm.ppAlloc A = .ok (none, w) := ⟨_, bind_of_ok ha _⟩
  obtain ⟨w, hp⟩ := hp
  rcases Vmm.ppAlloc_cases hp with ⟨_, hw⟩ | ⟨f, hf, _⟩
  · refine ⟨w, ?_, hw, ?_⟩
    · rw [growLoop]
      exact bind_of_ok hp _
    · rw [growFrames, hp]
  · cases hf

theorem TookNothing.refused (hr : Refused A h.vmm w) :
    TookNothing A [] h { h with vmm := w } := by
  refine ⟨?_, rfl, rfl, fun _ => Iff.rfl, ?_⟩
  · intro data hdata
    rw [hr.held]
    exact TookNothing.refl.data data hdata
  · intro a _
    exact hr.leafAt

theorem growLoop_keeps (h₀ : growLoop A virt (n + 1) h = .ok (r, h'))
    (hno : ¬A.Refuses h.vmm.frames) :
    ∃ f ∈ growFrames A virt (n + 1) h, f ∈ A.held h'.vmm.frames := by
  obtain ⟨_, hframes⟩ := growLoop_held h₀
  obtain ⟨⟨x, w⟩, ha, _⟩ := bind_ok h₀
  have hsome : ∃ f, x = some f := by
    obtain ⟨⟨y, s⟩, hs, ha⟩ := bind_ok ha
    cases y with
    | none => exact (hno ⟨s, hs⟩).elim
    | some f =>
      cases ha
      exact ⟨f, rfl⟩
  obtain ⟨f, rfl⟩ := hsome
  have hf : f.addr ∈ growFrames A virt (n + 1) h := by
    rw [growFrames, ha]
    exact List.mem_cons_self ..
  exact ⟨f.addr, hf, (hframes _ hf).2⟩

theorem TookNothing.not_kept (ht : TookNothing A frames h h') (hf : f ∈ frames) :
    f ∉ A.held h'.vmm.frames := by
  intro hheld
  have hnone := ht.data ∅ (Finset.empty_subset _)
  rw [Finset.empty_union] at hnone
  have hmem := Finset.mem_inter.2 ⟨List.mem_toFinset.2 hf, hheld⟩
  rw [hnone] at hmem
  exact Finset.notMem_empty _ hmem

theorem heapGrowPages_failed (h₀ : heapGrowPages A h pages = .ok (false, h')) (hn : pages ≠ 0) :
    growLoop A (u64 (h.heapStart + h.heapSize)) pages h = .ok (false, h') := by
  rcases heapGrowPages_cases h₀ with ⟨hz, _⟩ | ⟨_, _, hloop⟩ | ⟨_, hr, _⟩
  · exact (hn hz).elim
  · exact hloop
  · cases hr

theorem heapGrowPages_takes (h₀ : heapGrowPages A h (n + 1) = .ok (false, h'))
    (hno : ¬A.Refuses h.vmm.frames) :
    ¬TookNothing A (growFrames A (u64 (h.heapStart + h.heapSize)) (n + 1) h) h h' := by
  intro ht
  obtain ⟨f, hf, hheld⟩ := growLoop_keeps (heapGrowPages_failed h₀ (Nat.succ_ne_zero n)) hno
  exact ht.not_kept hf hheld

/-- A call of `heap_grow_pages` that fails has taken nothing exactly when it fails at its first
page. The pages it has mapped by then stay mapped, and their frames stay in use. -/
theorem heapGrowPages_tookNothing_iff (h₀ : heapGrowPages A h pages = .ok (false, h')) :
    TookNothing A (growFrames A (u64 (h.heapStart + h.heapSize)) pages h) h h' ↔
      pages = 0 ∨ A.Refuses h.vmm.frames := by
  cases pages with
  | zero =>
    cases h₀
    exact ⟨fun _ => .inl rfl, fun _ => .refl⟩
  | succ n =>
    constructor
    · intro ht
      apply Or.inr
      by_contra hno
      exact heapGrowPages_takes h₀ hno ht
    · rintro (hz | hr)
      · cases hz
      · have hloop := heapGrowPages_failed h₀ (Nat.succ_ne_zero n)
        obtain ⟨w, hfail, hw, hframes⟩ := growLoop_refuses hr (u64 (h.heapStart + h.heapSize)) n
        rw [hfail] at hloop
        cases hloop
        rw [hframes]
        exact .refused hw

theorem heapGrowPages_starved : ∃ h h' : Heap (PoolState tightPool),
    HeapRun (framePool tightPool tightPool_length) 0xffff800000000000 h [] ∧
    PoolState.left h.vmm.frames = 1 ∧
    heapGrowPages (framePool tightPool tightPool_length) h 16 = .ok (false, h') := by
  obtain ⟨h, hr, hi, _, _, hone, hfree⟩ := tightHeap
  obtain ⟨h', _, hgrow, _⟩ := hi.grow_starved (framePool_supply tightPool_length) hone hfree
    (show 1 < 16 by decide)
  exact ⟨h, h', hr, hone, hgrow⟩

theorem heapGrowPages_tookNothing_tight : ∃ h h' : Heap (PoolState tightPool),
    heapGrowPages (framePool tightPool tightPool_length) h 16 = .ok (false, h') ∧
    (TookNothing (framePool tightPool tightPool_length)
        (growFrames (framePool tightPool tightPool_length) (u64 (h.heapStart + h.heapSize)) 16 h)
        h h' ↔
      16 = 0 ∨ (framePool tightPool tightPool_length).Refuses h.vmm.frames) := by
  obtain ⟨h, h', _, _, hgrow⟩ := heapGrowPages_starved
  exact ⟨h, h', hgrow, heapGrowPages_tookNothing_iff hgrow⟩

/-- The one page left is lost to a growth by 16 pages that fails. -/
theorem heapGrowPages_loses_page : ∃ h h' : Heap (PoolState tightPool),
    HeapRun (framePool tightPool tightPool_length) 0xffff800000000000 h [] ∧
    heapGrowPages (framePool tightPool tightPool_length) h 16 = .ok (false, h') ∧
    ¬TookNothing (framePool tightPool tightPool_length)
      (growFrames (framePool tightPool tightPool_length) (u64 (h.heapStart + h.heapSize)) 16 h)
      h h' := by
  obtain ⟨h, h', hr, hone, hgrow⟩ := heapGrowPages_starved
  refine ⟨h, h', hr, hgrow, ?_⟩
  intro ht
  have hserved : ¬(framePool tightPool tightPool_length).Refuses h.vmm.frames := by
    rintro ⟨s, hs⟩
    obtain ⟨f, s', ha, _⟩ := (framePool_supply tightPool_length).served _ 0 hone
    rw [hs] at ha
    cases ha
  exact heapGrowPages_takes hgrow hserved ht

end AdaOS
