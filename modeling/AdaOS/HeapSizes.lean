import AdaOS.HeapFailure

namespace AdaOS
set_option autoImplicit true
open ByteMem Blocks

/-- Frees and reallocations are of live pointers, and sizes are any 64-bit numbers; `kcalloc`
checks its product itself. -/
def HeapOp.Callable (live : List (Nat × Nat)) : HeapOp → Prop
  | .kmalloc size => size < 2 ^ 64
  | .kcalloc _ _ => True
  | .krealloc ptr newSize => LivePtr live ptr ∧ newSize < 2 ^ 64
  | .kfree ptr => LivePtr live ptr

/-- The size a call asks for can be rounded up and the header added. A product that `kcalloc`
refuses is not rounded. -/
def HeapOp.Fits : HeapOp → Prop
  | .kmalloc size => size ≤ 2 ^ 64 - 32
  | .kcalloc num size => num * size < 2 ^ 64 → num * size ≤ 2 ^ 64 - 32
  | .krealloc _ newSize => newSize ≤ 2 ^ 64 - 32
  | .kfree _ => True

/-- No block is free, and the heap does not grow. -/
def Heap.Exhausted (A : FrameAllocator σ) (h : Heap σ) : Prop :=
  h.FreeList [] ∧ ∃ g g', heapGrowPages A h 16 = .ok (false, g) ∧
    heapGrowPages A g 1 = .ok (false, g')

/-- The block of `p` has a payload of at least `n` bytes in the heap. -/
structure Heap.HasPayload (h : Heap σ) (p n : Nat) : Prop where
  room : n ≤ (payloadOf h.bytes p).size
  start : h.heapStart ≤ p
  stop : (payloadOf h.bytes p).stop ≤ h.heapStart + h.heapSize

/-- The `n` bytes from `p` on are cleared in what `kmalloc` leaves, and nothing else of it is
written; the live blocks are what they were before the call. -/
structure Heap.Zeroed (A : FrameAllocator σ) (live : List (Nat × Nat)) (h h' : Heap σ)
    (p n : Nat) : Prop where
  zero : ∀ a, p ≤ a → a < p + n → h'.bytes a = 0
  rest : ∃ g, kmalloc A h n = .ok (p, g) ∧ ∀ a, a < p ∨ p + n ≤ a → h'.bytes a = g.bytes a
  others : ∀ e ∈ live, ∀ a, (payloadOf h.bytes e.1).Has a → h'.bytes a = h.bytes a

/-- A call that returns `p` honours the size it was asked for. -/
def HeapOp.Honoured (A : FrameAllocator σ) (live : List (Nat × Nat)) (h h' : Heap σ) (p : Nat) :
    HeapOp → Prop
  | .kmalloc size => p ≠ 0 → h'.HasPayload p size
  | .kcalloc num size => p ≠ 0 →
    h'.HasPayload p (num * size) ∧ h.Zeroed A live h' p (num * size)
  | .krealloc _ newSize => p ≠ 0 → h'.HasPayload p newSize
  | .kfree _ => True

/-- The heap after `setup_heap` and any calls on live pointers with any 64-bit sizes, those whose
rounding wraps only while the heap is exhausted, and any writes of the clients to the bytes they
have asked for. -/
inductive SizedRun (A : FrameAllocator σ) (higherHalf : Nat) :
    Heap σ → List (Nat × Nat) → Prop where
  | start : setupHeap A higherHalf (Heap.initial vmm pml4 bytes) = .ok h →
      SizedRun A higherHalf h []
  | call {op : HeapOp} : SizedRun A higherHalf h live → op.Callable live →
      op.Fits ∨ h.Exhausted A → op.run A h = .ok (p, h') →
      SizedRun A higherHalf h' (op.after p live)
  | write : SizedRun A higherHalf h live →
      (∀ a, (∀ e ∈ live, a < e.1 ∨ e.1 + e.2 ≤ a) → m a = h.bytes a) →
      SizedRun A higherHalf { h with bytes := m } live

variable {σ : Type} {A : FrameAllocator σ} {h h' g : Heap σ} {live : List (Nat × Nat)}
  {l : List Block} {op : HeapOp} {higherHalf : Nat} {e : Nat × Nat}

theorem HeapOp.Callable.allowed (hu : op.Callable live) (hf : op.Fits) : op.Allowed live := by
  cases op with
  | kmalloc size => exact hf
  | kcalloc num size => exact hf
  | krealloc ptr newSize => exact ⟨hu.1, hf⟩
  | kfree ptr => exact hu

theorem totalSize_wrapped (hw : 2 ^ 64 - 32 < size) (hlt : size < 2 ^ 64) :
    totalSize size = 16 := by
  have hround : alignUpHeap size = 0 ∨ alignUpHeap size = 2 ^ 64 - 16 := by
    rw [alignUpHeap, alignUp, u64, heapAlignment]
    omega
  have hsmall : u64 (alignUpHeap size + headerSize) < minAllocSize ∨
      u64 (alignUpHeap size + headerSize) = 16 := by
    rcases hround with hz | hm
    · exact .inr (hz ▸ rfl)
    · exact .inl (hm ▸ (by decide))
  rw [totalSize]
  rcases hsmall with hs | hs
  · exact if_pos hs
  · rw [hs]
    rfl

theorem smallest_spec : heapAlignment ∣ 16 ∧ 0 + headerSize ≤ 16 := by decide

section HeapInv
variable (hi : HeapInv A h live l)
include hi

theorem HeapInv.hasPayload (he : e ∈ live) : h.HasPayload e.1 e.2 := by
  have hs := hi.safe
  exact ⟨hs.room e he, (hs.within e he).1, (hs.within e he).2⟩

theorem HeapInv.payload_le (hs : h'.heapStart = h.heapStart) (hz : h'.heapSize = h.heapSize)
    (hp : h'.HasPayload p n) : n ≤ 2 ^ 64 - 32 := by
  have hstop := hi.stop_lt
  have hfirst : 4096 ≤ h.heapStart := Nat.le_of_dvd hi.positive hi.pages.1
  have hroom := hp.room
  have hstart := hp.start
  have hend : p + (payloadOf h'.bytes p).size ≤ h'.heapStart + h'.heapSize := hp.stop
  omega

theorem HeapInv.grow_failed (h₀ : heapGrowPages A h n = .ok (false, g)) (hn : n ≠ 0) :
    HeapInv A g live l := by
  have hloop := heapGrowPages_failed h₀ hn
  rw [u64_of_lt hi.stop_lt] at hloop
  have hbase : pageSize ∣ h.heapStart + h.heapSize := Nat.dvd_add hi.pages.1 hi.pages.2
  obtain ⟨hmap, _⟩ := growLoop_spec hloop hbase (Nat.add_le_add_left hi.backed _) hi.bounded
  exact (hi.mapped hmap).1

theorem HeapInv.grow_done (h₀ : heapGrowPages A h n = .ok (true, g)) (hn : 0 < n) :
    HeapInv A g live (place ⟨h.heapStart + h.heapSize, n * pageSize⟩ l) := by
  rcases heapGrowPages_cases h₀ with ⟨_, hr, _⟩ | ⟨_, hr, _⟩ | ⟨_, _, _, _, hloop, _⟩
  · cases hr
  · cases hr
  · rw [u64_of_lt hi.stop_lt] at hloop
    obtain ⟨g', hgrow, hinv, _⟩ := hi.grow_of_loop hn hloop
    rw [h₀] at hgrow
    cases hgrow
    exact hinv

end HeapInv

theorem HeapInv.kmallocLoop_smallest (hi : HeapInv A h live (c :: l))
    (h₀ : kmallocLoop A 16 fuel h = .ok (p, h')) : p ≠ 0 := by
  cases fuel with
  | zero => cases h₀
  | succ fuel =>
    obtain ⟨r, hfit, h₀⟩ := bind_ok h₀
    rcases findFit_cases 16 0 hi.chained.links hi.chained.nonzero
      hi.length_lt with ⟨_, hno⟩ | ⟨front, d, back, hl, hle, _, hsome⟩
    · have hc : c ∈ c :: l := List.mem_cons_self ..
      have hroom := hi.room (List.mem_append_right _ hc)
      exact (Nat.not_lt_of_le hroom (hno c hc)).elim
    · rw [hsome] at hfit
      cases hfit
      cases h₀
      rw [hl] at hi
      have hptr := (hi.take smallest_spec.1 smallest_spec.2 hle).1
      rw [hptr]
      exact Nat.ne_of_gt (Nat.add_pos_right _ (by decide))

theorem findFit_nil (hl : h.FreeList []) (total : Nat) :
    findFit h total h.walkFuel 0 h.freeListHead = .ok none := by
  have hhead : h.freeListHead = 0 := hl.1
  rw [Heap.walkFuel, findFit, if_pos hhead]

/-- The smallest request is refused exactly when the heap is exhausted. -/
theorem HeapInv.kmallocLoop_null_iff (hi : HeapInv A h live l)
    (h₀ : kmallocLoop A 16 (fuel + 1) h = .ok (p, h')) : p = 0 ↔ h.Exhausted A := by
  constructor
  · rintro rfl
    cases l with
    | cons c l => exact (hi.kmallocLoop_smallest h₀ rfl).elim
    | nil =>
      refine ⟨hi.freeList, ?_⟩
      have hgrown : ∀ {x y : Heap σ} {n k}, HeapInv A x live [] →
          heapGrowPages A x n = .ok (true, y) → 0 < n →
          kmallocLoop A 16 k y ≠ .ok (0, h') := by
        intro x y n k hx hgrow hn hloop
        exact (hx.grow_done hgrow hn).kmallocLoop_smallest hloop rfl
      obtain ⟨r, hfit, h₀⟩ := bind_ok h₀
      rw [findFit_nil hi.freeList] at hfit
      cases hfit
      obtain ⟨⟨x, g⟩, hgrow, h₀⟩ := bind_ok h₀
      cases x with
      | true => exact (hgrown hi hgrow (by decide) h₀).elim
      | false =>
        have hg := hi.grow_failed hgrow (by decide)
        obtain ⟨⟨y, g'⟩, hgrow', h₀⟩ := bind_ok h₀
        cases y with
        | true => exact (hgrown hg hgrow' (by decide) h₀).elim
        | false => exact ⟨g, g', hgrow, hgrow'⟩
  · rintro ⟨hnil, g, g', hgrow, hgrow'⟩
    have hnull : kmallocLoop A 16 (fuel + 1) h = .ok (0, g') := by
      rw [kmallocLoop, findFit_nil hnil]
      exact (bind_of_ok hgrow _).trans (bind_of_ok hgrow' _)
    rw [hnull] at h₀
    cases h₀
    rfl

theorem kmalloc_wrapped (hw : 2 ^ 64 - 32 < size) (hlt : size < 2 ^ 64) :
    kmalloc A h size = kmallocLoop A 16 (maxPages + 1) h := by
  have hne : size ≠ 0 := by omega
  rw [kmalloc, if_neg hne, totalSize_wrapped hw hlt]

/-- A call whose rounding wraps is one of `kmalloc` for the smallest block. What it does with the
block, and the block it frees, change neither where the heap is nor how large it is. -/
structure Wrapped (A : FrameAllocator σ) (h h' : Heap σ) (p : Nat) (g : Heap σ) : Prop where
  served : kmallocLoop A 16 (maxPages + 1) h = .ok (p, g)
  null : p = 0 → h' = g
  base : h'.heapStart = g.heapStart
  extent : h'.heapSize = g.heapSize

theorem Wrapped.of_kmalloc (hw : 2 ^ 64 - 32 < size) (hlt : size < 2 ^ 64)
    (h₀ : kmalloc A h size = .ok (p, h')) : Wrapped A h h' p h' :=
  ⟨(kmalloc_wrapped hw hlt).symm.trans h₀, fun _ => rfl, rfl, rfl⟩

theorem Wrapped.of_kcalloc (hw : 2 ^ 64 - 32 < num * size) (hlt : num * size < 2 ^ 64)
    (h₀ : kcalloc A h num size = .ok (p, h')) : ∃ g, Wrapped A h h' p g := by
  rw [kcalloc_eq, if_pos hlt, kmalloc_wrapped hw hlt] at h₀
  obtain ⟨⟨q, g⟩, hloop, h₀⟩ := bind_ok h₀
  dsimp only at h₀
  split at h₀
  · next hq =>
    cases h₀
    rw [hq] at hloop
    exact ⟨h', hloop, fun _ => rfl, rfl, rfl⟩
  · next hq =>
    cases h₀
    exact ⟨g, hloop, fun hp => (hq hp).elim, rfl, rfl⟩

/-- No payload is that large, so `krealloc` goes to `kmalloc`. -/
theorem HeapInv.krealloc_wrapped (hi : HeapInv A h live l) (hl : LivePtr live ptr)
    (hw : 2 ^ 64 - 32 < size) (hlt : size < 2 ^ 64)
    (h₀ : krealloc A h ptr size = .ok (p, h')) : ∃ g, Wrapped A h h' p g := by
  rcases hl with rfl | ⟨n, he⟩
  · rw [krealloc, if_pos rfl] at h₀
    exact ⟨h', .of_kmalloc hw hlt h₀⟩
  · have hpay := hi.hasPayload he
    have hwhole := hi.payload_le rfl rfl ⟨Nat.le_refl _, hpay.start, hpay.stop⟩
    have hsize : (payloadOf h.bytes ptr).size = (blockOf h.bytes ptr).size - 16 := rfl
    rw [hi.krealloc_eq he (by omega), if_neg (by dsimp only at *; omega),
      kmalloc_wrapped hw hlt] at h₀
    obtain ⟨⟨q, g⟩, hloop, h₀⟩ := bind_ok h₀
    dsimp only at h₀
    split at h₀
    · next hq =>
      cases h₀
      rw [hq] at hloop
      exact ⟨h', hloop, fun _ => rfl, rfl, rfl⟩
    · next hq =>
      obtain ⟨w, hfree, h₀⟩ := bind_ok h₀
      cases h₀
      have hedit := kfree_edits hfree
      exact ⟨g, hloop, fun hp => (hq hp).elim, hedit.start, hedit.size⟩

theorem HeapInv.wrapped (hi : HeapInv A h live l) (hu : op.Callable live) (hf : ¬op.Fits)
    (h₀ : op.run A h = .ok (p, h')) : 2 ^ 64 - 32 < op.asked ∧ ∃ g, Wrapped A h h' p g := by
  cases op with
  | kmalloc size =>
    have hw : 2 ^ 64 - 32 < size := Nat.lt_of_not_le hf
    exact ⟨hw, h', .of_kmalloc hw hu h₀⟩
  | kcalloc num size =>
    obtain ⟨hlt, hw⟩ := Classical.not_imp.1 hf
    have hw : 2 ^ 64 - 32 < num * size := Nat.lt_of_not_le hw
    exact ⟨hw, Wrapped.of_kcalloc hw hlt h₀⟩
  | krealloc ptr newSize =>
    have hw : 2 ^ 64 - 32 < newSize := Nat.lt_of_not_le hf
    exact ⟨hw, hi.krealloc_wrapped hu.1 hw hu.2 h₀⟩
  | kfree ptr => exact (hf trivial).elim

theorem HeapOp.Honoured.hasPayload (ho : op.Honoured A live h h' p) (hp : p ≠ 0)
    (hf : ¬op.Fits) : h'.HasPayload p op.asked := by
  cases op with
  | kmalloc size => exact ho hp
  | kcalloc num size => exact (ho hp).1
  | krealloc ptr newSize => exact ho hp
  | kfree ptr => exact (hf trivial).elim

theorem HeapOp.honoured_null (op : HeapOp) : op.Honoured A live h h' 0 := by
  cases op with
  | kmalloc size => exact fun hp => (hp rfl).elim
  | kcalloc num size => exact fun hp => (hp rfl).elim
  | krealloc ptr newSize => exact fun hp => (hp rfl).elim
  | kfree ptr => trivial

theorem HeapInv.honoured_wrapped_iff (hi : HeapInv A h live l) (hu : op.Callable live)
    (hf : ¬op.Fits) (h₀ : op.run A h = .ok (p, h')) :
    op.Honoured A live h h' p ↔ h.Exhausted A := by
  obtain ⟨hbig, g, hw⟩ := hi.wrapped hu hf h₀
  rw [← hi.kmallocLoop_null_iff hw.served]
  constructor
  · intro ho
    by_contra hp
    obtain ⟨⟨_, hg⟩, _⟩ := hi.of_kmallocLoop hw.served smallest_spec.1 smallest_spec.2
    have hle := hg.payload_le hw.base hw.extent (ho.hasPayload hp hf)
    omega
  · rintro rfl
    exact op.honoured_null

theorem HeapInv.kcalloc_zeroed (hi : HeapInv A h live l)
    (h₀ : kcalloc A h num size = .ok (p, h')) (hp : p ≠ 0)
    (hle : num * size < 2 ^ 64 → num * size ≤ 2 ^ 64 - 32) :
    h.Zeroed A live h' p (num * size) := by
  have hkeep := (hi.of_kcalloc h₀ hle).2
  have hothers : ∀ e ∈ live, ∀ a, (payloadOf h.bytes e.1).Has a → h'.bytes a = h.bytes a := by
    intro e he a ha
    exact hkeep.bytes a ⟨_, List.mem_map_of_mem he, hi.payload_has he ha⟩
  rw [kcalloc_eq] at h₀
  split at h₀
  · obtain ⟨⟨q, g⟩, hg, h₀⟩ := bind_ok h₀
    dsimp only at h₀
    split at h₀
    · cases h₀
      exact (hp rfl).elim
    · cases h₀
      refine ⟨fun a hlo hhi => fill_of_inside hlo hhi, ⟨g, hg, ?_⟩, hothers⟩
      intro a ha
      exact fill_of_outside ha
  · cases h₀
    exact (hp rfl).elim

theorem HeapInv.honoured_of_fits (hi : HeapInv A h live l) (ho : op.Allowed live)
    (h₀ : op.run A h = .ok (p, h')) : op.Honoured A live h h' p := by
  have hpay : p ≠ 0 → h'.HasPayload p op.asked := by
    intro hp
    obtain ⟨⟨l', hi'⟩, _⟩ := hi.of_call ho h₀
    exact hi'.hasPayload (HeapOp.mem_after hp h₀)
  cases op with
  | kmalloc size => exact hpay
  | kcalloc num size => exact fun hp => ⟨hpay hp, hi.kcalloc_zeroed h₀ hp ho⟩
  | krealloc ptr newSize => exact hpay
  | kfree ptr => trivial

theorem HeapOp.after_null (hf : ¬op.Fits) : op.after 0 live = live := by
  cases op with
  | kmalloc size => rfl
  | kcalloc num size => rfl
  | krealloc ptr newSize =>
    have hw : 2 ^ 64 - 32 < newSize := Nat.lt_of_not_le hf
    exact if_neg (not_or.2 ⟨by omega, not_not.2 rfl⟩)
  | kfree ptr => exact (hf trivial).elim

theorem HeapInv.of_sized_call (hi : HeapInv A h live l) (hu : op.Callable live)
    (hc : op.Fits ∨ h.Exhausted A) (h₀ : op.run A h = .ok (p, h')) :
    ∃ l', HeapInv A h' (op.after p live) l' := by
  by_cases hf : op.Fits
  · exact (hi.of_call (hu.allowed hf) h₀).1
  · obtain ⟨_, g, hw⟩ := hi.wrapped hu hf h₀
    obtain rfl := (hi.kmallocLoop_null_iff hw.served).2 (hc.resolve_left hf)
    obtain ⟨hinv, _⟩ := hi.of_kmallocLoop hw.served smallest_spec.1 smallest_spec.2
    rw [hw.null rfl, HeapOp.after_null hf]
    exact hinv

theorem SizedRun.inv (hr : SizedRun A higherHalf h live) (hb : HhdmPlaced higherHalf) :
    ∃ l, HeapInv A h live l := by
  induction hr with
  | start h₀ => exact (setupHeap_inv hb h₀).1
  | call _ hu hc h₀ ih =>
    obtain ⟨l, hi⟩ := ih
    exact hi.of_sized_call hu hc h₀
  | write _ hm ih =>
    obtain ⟨l, hi⟩ := ih
    exact ⟨l, hi.write hm⟩

theorem HeapOp.Allowed.sized (ho : op.Allowed live) : op.Callable live ∧ op.Fits := by
  cases op with
  | kmalloc size => exact ⟨Nat.lt_of_le_of_lt ho (by decide), ho⟩
  | kcalloc num size => exact ⟨trivial, ho⟩
  | krealloc ptr newSize => exact ⟨⟨ho.1, Nat.lt_of_le_of_lt ho.2 (by decide)⟩, ho.2⟩
  | kfree ptr => exact ⟨ho, trivial⟩

theorem HeapRun.sized (hr : HeapRun A higherHalf h live) : SizedRun A higherHalf h live := by
  induction hr with
  | start h₀ => exact .start h₀
  | call _ ho h₀ ih => exact ih.call ho.sized.1 (.inl ho.sized.2) h₀
  | write _ hm ih => exact ih.write hm

/-- A call honours the size it was asked for exactly when the rounding of the size does not wrap,
or the heap is exhausted and it returns `NULL`. -/
theorem sizes_honoured_iff (hb : HhdmPlaced higherHalf) (hr : SizedRun A higherHalf h live)
    (hu : op.Callable live) (h₀ : op.run A h = .ok (p, h')) :
    op.Honoured A live h h' p ↔ op.Fits ∨ h.Exhausted A := by
  obtain ⟨l, hi⟩ := hr.inv hb
  by_cases hf : op.Fits
  · exact ⟨fun _ => .inl hf, fun _ => hi.honoured_of_fits (hu.allowed hf) h₀⟩
  · rw [hi.honoured_wrapped_iff hu hf h₀]
    exact ⟨.inr, fun hc => hc.resolve_left hf⟩

theorem sizes_honoured_tight : ∃ (h h' : Heap (PoolState tightPool)) (p : Nat),
    SizedRun (framePool tightPool tightPool_length) 0xffff800000000000 h [] ∧
    kmalloc (framePool tightPool tightPool_length) h 64 = .ok (p, h') ∧ p ≠ 0 ∧
    ((HeapOp.kmalloc 64).Honoured (framePool tightPool tightPool_length) [] h h' p ↔
      (HeapOp.kmalloc 64).Fits ∨ h.Exhausted (framePool tightPool tightPool_length)) := by
  obtain ⟨h, hr, hi, _⟩ := tightHeap
  obtain ⟨p, h', hk, hp, _⟩ := hi.kmalloc_split (show 64 ≠ 0 by decide) (by decide)
    (by decide)
  have hcall : HeapOp.Callable [] (.kmalloc 64) := show 64 < 2 ^ 64 by decide
  exact ⟨h, h', p, hr.sized, hk, hp, sizes_honoured_iff hhdmPlaced_default hr.sized hcall hk⟩

/-- A request for all but one of the bytes there can be gets a block without a payload. -/
theorem kmalloc_without_payload : ∃ (h h' : Heap (PoolState tightPool)) (p : Nat),
    SizedRun (framePool tightPool tightPool_length) 0xffff800000000000 h [] ∧
    kmalloc (framePool tightPool tightPool_length) h (2 ^ 64 - 1) = .ok (p, h') ∧ p ≠ 0 ∧
    (payloadOf h'.bytes p).size = 0 ∧
    ¬(HeapOp.kmalloc (2 ^ 64 - 1)).Honoured (framePool tightPool tightPool_length) [] h h' p := by
  obtain ⟨h, hr, hi, _⟩ := tightHeap
  obtain ⟨h', hloop, _, _, hinv⟩ := hi.kmallocLoop_split smallest_spec.1 smallest_spec.2
    (by decide) maxPages
  generalize hp : 0xffff810000000000 + headerSize = p at hloop hinv
  have hne : p ≠ 0 := by
    rw [← hp]
    decide
  have hlive : (p, 0) ∈ [(p, 0)] := List.mem_singleton_self _
  have hnone : (payloadOf h'.bytes p).size = 0 := by
    have hap := hinv.tiling.apart_free (List.mem_map_of_mem hlive) (List.mem_singleton_self _)
    obtain ⟨haddr, _, _, _, hroom, _⟩ := hinv.block hlive
    have hheader : headerSize = 16 := rfl
    simp only [Block.Apart, Block.stop, payloadOf, blockOf] at *
    omega
  refine ⟨h, h', p, hr.sized, (kmalloc_wrapped (by decide) (by decide)).trans hloop, hne, hnone, ?_⟩
  intro ho
  have hroom := (ho hne).room
  rw [hnone] at hroom
  exact absurd hroom (by decide)

end AdaOS
