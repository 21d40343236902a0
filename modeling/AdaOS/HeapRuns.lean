import AdaOS.HeapSteps

namespace AdaOS
set_option autoImplicit true
open ByteMem Blocks

/-- A call of the heap's interface. -/
inductive HeapOp where
  | kmalloc (size : Nat)
  | kcalloc (num size : Nat)
  | krealloc (ptr newSize : Nat)
  | kfree (ptr : Nat)
  deriving DecidableEq, Repr

def HeapOp.run (A : FrameAllocator σ) (h : Heap σ) : HeapOp → Except Fault (Nat × Heap σ)
  | .kmalloc size => AdaOS.kmalloc A h size
  | .kcalloc num size => AdaOS.kcalloc A h num size
  | .krealloc ptr newSize => AdaOS.krealloc A h ptr newSize
  | .kfree ptr => do
    let h ← AdaOS.kfree h ptr
    .ok (0, h)

/-- The pointer a call frees or reallocates; `NULL` when there is none. -/
def HeapOp.subject : HeapOp → Nat
  | .kmalloc _ => 0
  | .kcalloc _ _ => 0
  | .krealloc ptr _ => ptr
  | .kfree ptr => ptr

def HeapOp.asked : HeapOp → Nat
  | .kmalloc size => size
  | .kcalloc num size => num * size
  | .krealloc _ newSize => newSize
  | .kfree _ => 0

/-- The live pointers after a call that returned `p`. -/
def HeapOp.after (op : HeapOp) (p : Nat) (live : List (Nat × Nat)) : List (Nat × Nat) :=
  match op with
  | .kmalloc size => given p size live
  | .kcalloc num size => given p (num * size) live
  | .krealloc ptr newSize =>
    if newSize = 0 ∨ p ≠ 0 then given p newSize (dropped ptr live) else live
  | .kfree ptr => dropped ptr live

/-- `NULL` or a live pointer. -/
def LivePtr (live : List (Nat × Nat)) (ptr : Nat) : Prop := ptr = 0 ∨ ∃ n, (ptr, n) ∈ live

/-- Frees and reallocations are of live pointers, and a size leaves room for the header and the
rounding. A product `kcalloc` cannot represent is refused by it and needs no room. -/
def HeapOp.Allowed (live : List (Nat × Nat)) : HeapOp → Prop
  | .kmalloc size => size ≤ 2 ^ 64 - 32
  | .kcalloc num size => num * size < 2 ^ 64 → num * size ≤ 2 ^ 64 - 32
  | .krealloc ptr newSize => LivePtr live ptr ∧ newSize ≤ 2 ^ 64 - 32
  | .kfree ptr => LivePtr live ptr

/-- The bootloader puts the direct map at a page boundary that leaves room, above the heap's
start, for every page the allocator has. -/
structure HhdmPlaced (higherHalf : Nat) : Prop where
  aligned : pageSize ∣ higherHalf
  room : higherHalf + 0x10000000000 + pageSize * maxPages < 2 ^ 64

/-- The heap after `setup_heap` and any calls on live pointers, with any writes of the clients
to the bytes they have asked for. -/
inductive HeapRun (A : FrameAllocator σ) (higherHalf : Nat) :
    Heap σ → List (Nat × Nat) → Prop where
  | start : setupHeap A higherHalf (Heap.initial vmm pml4 bytes) = .ok h →
      HeapRun A higherHalf h []
  | call {op : HeapOp} : HeapRun A higherHalf h live → op.Allowed live →
      op.run A h = .ok (p, h') →
      HeapRun A higherHalf h' (op.after p live)
  | write : HeapRun A higherHalf h live →
      (∀ a, (∀ e ∈ live, a < e.1 ∨ e.1 + e.2 ≤ a) → m a = h.bytes a) →
      HeapRun A higherHalf { h with bytes := m } live

variable {σ : Type} {A : FrameAllocator σ} {h h' : Heap σ} {live live' : List (Nat × Nat)}
  {l : List Block} {op : HeapOp} {higherHalf : Nat}

theorem HeapInv.not_null (hi : HeapInv A h live l) (he : e ∈ live) : e.1 ≠ 0 := by
  obtain ⟨haddr, _⟩ := hi.block he
  exact haddr ▸ Nat.succ_ne_zero _

theorem HeapInv.dropped_null (hi : HeapInv A h live l) : dropped 0 live = live :=
  List.filter_eq_self.2 fun _ he => decide_eq_true (hi.not_null he)

theorem HeapInv.of_kfree_any (hi : HeapInv A h live l) (hp : LivePtr live ptr)
    (h₀ : kfree h ptr = .ok h') : (∃ l', HeapInv A h' (dropped ptr live) l') ∧
      Keeps (h.used (dropped ptr live)) h h' := by
  rcases hp with rfl | ⟨n, he⟩
  · rw [kfree, if_pos rfl] at h₀
    cases h₀
    rw [hi.dropped_null]
    exact ⟨⟨l, hi⟩, .refl⟩
  · obtain ⟨w, hw, hfreed⟩ := hi.of_kfree he
    obtain rfl : w = h' := Except.ok.inj (hw.symm.trans h₀)
    exact hfreed

theorem HeapInv.of_krealloc_any (hi : HeapInv A h live l) (hp : LivePtr live ptr)
    (hle : size ≤ 2 ^ 64 - 32) (h₀ : krealloc A h ptr size = .ok (p, h')) :
    (∃ l', HeapInv A h' (HeapOp.after (.krealloc ptr size) p live) l') ∧
      Keeps (h.used (dropped ptr live)) h h' := by
  rw [HeapOp.after]
  rcases hp with rfl | ⟨n, he⟩
  · rw [krealloc, if_pos rfl] at h₀
    rw [hi.dropped_null]
    obtain ⟨hinv, hk⟩ := hi.of_kmalloc h₀ hle
    refine ⟨?_, hk⟩
    split
    · exact hinv
    · next hno =>
      rw [not_or, not_not] at hno
      rw [given, if_pos hno.2] at hinv
      exact hinv
  · by_cases hn : size = 0
    · have hptr : ptr ≠ 0 := hi.not_null he
      rw [krealloc, if_neg hptr, if_pos hn] at h₀
      obtain ⟨g, hg, h₀⟩ := bind_ok h₀
      cases h₀
      rw [if_pos (.inl hn), given, if_pos rfl]
      exact hi.of_kfree_any (.inr ⟨n, he⟩) hg
    · obtain ⟨hinv, hk⟩ := hi.of_krealloc he h₀ hn hle
      refine ⟨?_, hk⟩
      by_cases hp : p = 0
      · rw [if_pos hp] at hinv
        rw [if_neg (not_or.2 ⟨hn, not_not.2 hp⟩)]
        exact hinv
      · rw [if_neg hp] at hinv
        rw [if_pos (.inr hp), given, if_neg hp]
        exact hinv

theorem HeapInv.of_call (hi : HeapInv A h live l) (ho : op.Allowed live)
    (h₀ : op.run A h = .ok (p, h')) :
    (∃ l', HeapInv A h' (op.after p live) l') ∧ Keeps (h.used (dropped op.subject live)) h h' := by
  have hnull := hi.dropped_null
  cases op with
  | kmalloc size =>
    rw [HeapOp.subject, hnull]
    exact hi.of_kmalloc h₀ ho
  | kcalloc num size =>
    rw [HeapOp.subject, hnull]
    exact hi.of_kcalloc h₀ ho
  | krealloc ptr newSize => exact hi.of_krealloc_any ho.1 ho.2 h₀
  | kfree ptr =>
    obtain ⟨g, hg, h₀⟩ := bind_ok h₀
    cases h₀
    exact hi.of_kfree_any ho hg

theorem HeapOp.mem_after (hp : p ≠ 0) (h₀ : op.run A h = .ok (p, h')) :
    (p, op.asked) ∈ op.after p live := by
  cases op with
  | kmalloc size =>
    rw [HeapOp.after, given, if_neg hp]
    exact List.mem_cons_self ..
  | kcalloc num size =>
    rw [HeapOp.after, given, if_neg hp]
    exact List.mem_cons_self ..
  | krealloc ptr newSize =>
    rw [HeapOp.after, if_pos (.inr hp), given, if_neg hp]
    exact List.mem_cons_self ..
  | kfree ptr =>
    obtain ⟨g, _, h₀⟩ := bind_ok h₀
    cases h₀
    exact (hp rfl).elim

theorem HeapInv.initial (vmm : Vmm σ) (pml4 : BitVec 64) (bytes : Mem)
    (hb : HhdmPlaced higherHalf) : HeapInv A { Heap.initial vmm pml4 bytes with
    heapStart := u64 (higherHalf + 0x10000000000), heapSize := 0 } [] [] := by
  have hroom := hb.room
  have hpages : pageSize * maxPages = 2 ^ 32 := by decide
  rw [u64_of_lt (by omega)]
  refine ⟨.nil rfl, Tiling.empty _ _, fun _ he => (nomatch he), ⟨?_, Nat.dvd_zero _⟩, ?_, hroom,
    Nat.zero_le _⟩
  · exact Nat.dvd_add hb.aligned (by decide)
  · exact Nat.add_pos_right _ (by decide)

/-- `setup_heap` leaves one free block, all of the heap. -/
theorem setupHeap_inv (hb : HhdmPlaced higherHalf)
    (h₀ : setupHeap A higherHalf (Heap.initial vmm pml4 bytes) = .ok h) :
    (∃ l, HeapInv A h [] l) ∧ h.heapStart = higherHalf + 0x10000000000 ∧ 0 < h.heapSize := by
  have hroom := hb.room
  have hpages : pageSize * maxPages = 2 ^ 32 := by decide
  have hinit := HeapInv.initial (A := A) vmm pml4 bytes hb
  obtain ⟨⟨r, g⟩, hgrow, h₀⟩ := bind_ok h₀
  obtain ⟨⟨l, hg⟩, hk, hsize⟩ := hinit.grow hgrow (by decide)
  have hstart := hk.start.trans (u64_of_lt (show higherHalf + 0x10000000000 < 2 ^ 64 by omega))
  cases r with
  | false => cases h₀
  | true =>
    cases h₀
    have hpos : 0 < g.heapSize := by
      rw [hsize rfl]
      exact Nat.add_pos_right _ (by decide)
    have hwhole := hg.tiling.eq_whole (Nat.lt_add_of_pos_right hpos)
    rw [Nat.add_sub_cancel_left] at hwhole
    have hlt : g.heapSize < 2 ^ 64 := Nat.lt_of_le_of_lt (Nat.le_add_left ..) hg.stop_lt
    refine ⟨⟨l, hg.carry ⟨rfl, Nat.le_refl _, ?_⟩ ⟨?_, hg.chained.roomy, hg.chained.nonzero,
      hg.chained.below⟩ hg.tiling hg.pages.2 hg.backed⟩, hstart, hpos⟩
    · intro a hcov
      exact (covers_nil hcov).elim
    · rw [hwhole]
      exact ⟨rfl, Heap.sizeAt_setNext.trans (Heap.sizeAt_setSize hlt),
        Heap.nextAt_setNext (by decide)⟩

/-- Every reachable heap is tiled by its live blocks and its free list. -/
theorem HeapRun.inv (hr : HeapRun A higherHalf h live) (hb : HhdmPlaced higherHalf) :
    (∃ l, HeapInv A h live l) ∧ h.heapStart = higherHalf + 0x10000000000 ∧ 0 < h.heapSize := by
  induction hr with
  | start h₀ => exact setupHeap_inv hb h₀
  | call _ ho h₀ ih =>
    obtain ⟨⟨l, hi⟩, hstart, hpos⟩ := ih
    obtain ⟨hinv, hk⟩ := hi.of_call ho h₀
    exact ⟨hinv, hk.start.trans hstart, Nat.lt_of_lt_of_le hpos hk.size⟩
  | write _ hm ih =>
    obtain ⟨⟨l, hi⟩, hstart, hpos⟩ := ih
    exact ⟨⟨l, hi.write hm⟩, hstart, hpos⟩

end AdaOS
