import AdaOS.HeapReturns

namespace AdaOS
set_option autoImplicit true
open ByteMem Blocks

/-- The bytes behind the header that a live pointer's block has for its client. -/
def payloadOf (m : Mem) (ptr : Nat) : Block := ⟨ptr, word m (ptr - headerSize) - headerSize⟩

def headerOf (ptr : Nat) : Block := ⟨ptr - headerSize, headerSize⟩

/-- The list from `free_list_head` on ends, and goes through these blocks. -/
def Heap.FreeList (h : Heap σ) (l : List Block) : Prop :=
  Links h.bytes h.freeListHead l 0 ∧ ∀ b ∈ l, b.addr ≠ 0

/-- What the clients of the heap rely on. -/
structure HeapSafe (h : Heap σ) (live : List (Nat × Nat)) : Prop where
  aligned : ∀ e ∈ live, 16 ∣ e.1
  room : ∀ e ∈ live, e.2 ≤ (payloadOf h.bytes e.1).size
  within : ∀ e ∈ live, h.heapStart ≤ e.1 ∧
    (payloadOf h.bytes e.1).stop ≤ h.heapStart + h.heapSize
  payloads : live.Pairwise fun e e' =>
    (payloadOf h.bytes e.1).Apart (payloadOf h.bytes e'.1)
  headers : ∀ e ∈ live, ∀ e' ∈ live, (payloadOf h.bytes e.1).Apart (headerOf e'.1)
  free : ∃ l, h.FreeList l ∧ ∀ e ∈ live, ∀ b ∈ l, (payloadOf h.bytes e.1).Apart b

variable {σ : Type} {A : FrameAllocator σ} {h h' : Heap σ} {live live' : List (Nat × Nat)}
  {l l' : List Block} {op : HeapOp} {higherHalf : Nat} {e : Nat × Nat}

theorem Heap.FreeList.unique (hl : h.FreeList l) (hl' : h.FreeList l') : l = l' :=
  hl.1.unique hl'.1 hl.2 hl'.2

theorem HeapInv.freeList (hi : HeapInv A h live l) : h.FreeList l :=
  ⟨hi.chained.links, hi.chained.nonzero⟩

theorem HeapInv.payload (hi : HeapInv A h live l) (he : e ∈ live) :
    (payloadOf h.bytes e.1).addr = (blockOf h.bytes e.1).addr + 16 ∧
      (payloadOf h.bytes e.1).stop = (blockOf h.bytes e.1).stop := by
  obtain ⟨haddr, _, _, _, hroom, _⟩ := hi.block he
  refine ⟨haddr.symm, ?_⟩
  change 16 ≤ word h.bytes (e.1 - headerSize) at hroom
  have hheader : headerSize = 16 := rfl
  simp only [Block.stop, payloadOf, blockOf] at *
  omega

theorem HeapInv.payload_has (hi : HeapInv A h live l) (he : e ∈ live)
    (ha : (payloadOf h.bytes e.1).Has a) : (blockOf h.bytes e.1).Has a := by
  obtain ⟨haddr, hstop⟩ := hi.payload he
  have hlo := ha.1
  have hhi := ha.2
  exact ⟨by omega, by omega⟩

theorem HeapInv.safe (hi : HeapInv A h live l) : HeapSafe h live := by
  have hheader : headerSize = 16 := rfl
  have hshrink : ∀ {e b}, e ∈ live → (blockOf h.bytes e.1).Apart b →
      (payloadOf h.bytes e.1).Apart b := by
    intro e b he hap
    obtain ⟨haddr, hstop⟩ := hi.payload he
    exact hap.mono (by omega) (Nat.le_of_eq hstop)
  refine ⟨fun e he => ?_, fun e he => ?_, fun e he => ?_, ?_, ?_, l, hi.freeList, ?_⟩
  · obtain ⟨_, _, _, _, _, hdvd⟩ := hi.block he
    exact hdvd
  · obtain ⟨_, _, _, hend, _, _⟩ := hi.block he
    have hstop := (hi.payload he).2
    have hpay : (payloadOf h.bytes e.1).stop = e.1 + (payloadOf h.bytes e.1).size := rfl
    omega
  · obtain ⟨haddr, hlo, hhi, _⟩ := hi.block he
    have hstop := (hi.payload he).2
    omega
  · apply (List.pairwise_map.1 hi.tiling.apart).imp_of_mem
    intro e e' he he' hap
    exact (hshrink he' (hshrink he hap).symm).symm
  · intro e he e' he'
    obtain ⟨haddr', hlo', _, _, hroom, _⟩ := hi.block he'
    have hpos := hi.positive
    have hstop : (headerOf e'.1).stop = e'.1 := Nat.sub_add_cancel (by omega)
    have hblock : (blockOf h.bytes e'.1).stop =
      (blockOf h.bytes e'.1).addr + (blockOf h.bytes e'.1).size := rfl
    by_cases hsame : e.1 = e'.1
    · rw [hsame]
      exact .inr (Nat.le_of_eq hstop)
    · have hap := hshrink he (hi.apart he he' hsame)
      have hstart : (headerOf e'.1).addr = (blockOf h.bytes e'.1).addr := rfl
      have hap' := hap.symm.mono (d := headerOf e'.1) (Nat.le_of_eq hstart.symm) (by omega)
      exact hap'.symm
  · intro e he b hb
    exact hshrink he (hi.tiling.apart_free (List.mem_map_of_mem he) hb)

/-- The heap is safe in every reachable state, a pointer a call returns is one of the live ones,
and no call changes a payload other than the one it frees or reallocates. -/
theorem heapRun_safe (hb : HhdmPlaced higherHalf) (hr : HeapRun A higherHalf h live) :
    HeapSafe h live ∧ ∀ op p h', HeapOp.Allowed live op → op.run A h = .ok (p, h') →
      HeapSafe h' (op.after p live) ∧ (p ≠ 0 → (p, op.asked) ∈ op.after p live) ∧
      ∀ e ∈ live, e.1 ≠ op.subject → ∀ a, (payloadOf h.bytes e.1).Has a →
        h'.bytes a = h.bytes a := by
  obtain ⟨⟨l, hi⟩, _⟩ := hr.inv hb
  refine ⟨hi.safe, fun op p h' ho h₀ => ?_⟩
  obtain ⟨⟨l', hi'⟩, hk⟩ := hi.of_call ho h₀
  refine ⟨hi'.safe, fun hp => HeapOp.mem_after hp h₀, fun e he hne a ha => ?_⟩
  have hkept : e ∈ dropped op.subject live := List.mem_filter.2 ⟨he, decide_eq_true hne⟩
  apply hk.bytes
  exact ⟨_, List.mem_map_of_mem hkept, hi.payload_has he ha⟩

theorem heapRun_safe_hole : ∃ (h : Heap (OwnedPmm oneChunk)) (p r : Nat), p ≠ 0 ∧ r ≠ 0 ∧
    HeapSafe h [(r, 40), (p, 24)] ∧
    ∀ op q h', HeapOp.Allowed [(r, 40), (p, 24)] op →
      op.run (pmmFrames oneChunk_sound) h = .ok (q, h') →
      HeapSafe h' (op.after q [(r, 40), (p, 24)]) ∧
      (q ≠ 0 → (q, op.asked) ∈ op.after q [(r, 40), (p, 24)]) ∧
      ∀ e ∈ [(r, 40), (p, 24)], e.1 ≠ op.subject → ∀ a, (payloadOf h.bytes e.1).Has a →
        h'.bytes a = h.bytes a := by
  obtain ⟨h, p, r, hp, hr0, hr⟩ := heapRun_hole
  exact ⟨h, p, r, hp, hr0, heapRun_safe hhdmPlaced_default hr⟩

/-- The free list is canonical in every reachable state: it is the list of the maximal gaps
between the live blocks, and so depends on these and the size of the heap only. -/
theorem heapRun_canonical (hb : HhdmPlaced higherHalf) (hr : HeapRun A higherHalf h live) :
    ∃ l, h.FreeList l ∧ l.Pairwise (fun b c => b.addr < c.addr) ∧
      (∀ b, b ∈ l ↔
        Maximal (Gap h.heapStart (h.heapStart + h.heapSize) (h.used live)) b) ∧
      (∀ b ∈ h.used live ++ l, 16 ∣ b.size ∧ 16 ≤ b.size) ∧
      (h.used live ++ l).Pairwise Block.Apart ∧
      (∀ a, Covers (h.used live ++ l) a ↔
        h.heapStart ≤ a ∧ a < h.heapStart + h.heapSize) ∧
      (live = [] → l = [⟨h.heapStart, h.heapSize⟩]) ∧
      ∀ h' live' l', HeapRun A higherHalf h' live' → h'.heapSize = h.heapSize →
        (∀ b, b ∈ h'.used live' ↔ b ∈ h.used live) → h'.FreeList l' → l' = l := by
  obtain ⟨⟨l, hi⟩, hstart, hpos⟩ := hr.inv hb
  obtain ⟨hap, hcov⟩ := hi.tiling.cover
  refine ⟨l, hi.freeList, ?_, fun b => hi.tiling.mem_iff, fun b hbm => ?_, hap, hcov, ?_, ?_⟩
  · apply hi.tiling.spaced.gaps.imp
    intro b c hbc
    exact Nat.lt_of_le_of_lt b.addr_le_stop hbc
  · exact ⟨(hi.tiling.grain b hbm).2, hi.room hbm⟩
  · rintro rfl
    have hwhole := hi.tiling.eq_whole (Nat.lt_add_of_pos_right hpos)
    rwa [Nat.add_sub_cancel_left] at hwhole
  · intro h' live' l' hr' hsize hused hl'
    obtain ⟨⟨l'', hi'⟩, hstart', _⟩ := hr'.inv hb
    have ht := hi'.tiling
    rw [hstart', hsize, ← hstart] at ht
    rw [hl'.unique hi'.freeList]
    exact ht.unique hi.tiling hused

theorem heapRun_canonical_hole : ∃ (h : Heap (OwnedPmm oneChunk)) (p r : Nat), p ≠ 0 ∧ r ≠ 0 ∧
    ∃ l, h.FreeList l ∧
      (∀ b, b ∈ l ↔ Maximal
        (Gap h.heapStart (h.heapStart + h.heapSize) (h.used [(r, 40), (p, 24)])) b) ∧
      ∀ a, Covers (h.used [(r, 40), (p, 24)] ++ l) a ↔
        h.heapStart ≤ a ∧ a < h.heapStart + h.heapSize := by
  obtain ⟨h, p, r, hp, hr0, hr⟩ := heapRun_hole
  obtain ⟨l, hl, _, hgaps, _, _, hcov, _⟩ := heapRun_canonical hhdmPlaced_default hr
  exact ⟨h, p, r, hp, hr0, l, hl, hgaps, hcov⟩

end AdaOS
