import AdaOS.HeapRuns
import AdaOS.MapPage

namespace AdaOS
set_option autoImplicit true
open ByteMem Blocks

/-- The faults that come from below the heap: `map_page` fails, or `pp_alloc` does not return. -/
def FromBelow (A : FrameAllocator σ) (e : Fault) : Prop :=
  e = .panic "heap_expand_pages: vmm_map_page failed" ∨ ∃ s, A.alloc s = .error e

variable {σ : Type} {A : FrameAllocator σ} {v : Vmm σ} {h h' : Heap σ}
  {live : List (Nat × Nat)} {l : List Block} {op : HeapOp} {higherHalf : Nat}

theorem ppAlloc_error (h : v.ppAlloc A = .error e) : ∃ s, A.alloc s = .error e := by
  rcases bind_error h with ha | ⟨⟨x, s⟩, _, h⟩
  · exact ⟨_, ha⟩
  · cases x with
    | none => cases h
    | some f => cases h

theorem getOrAllocateNextLevel_error (h : getOrAllocateNextLevel A v t i flags = .error e) :
    ∃ s, A.alloc s = .error e := by
  rw [getOrAllocateNextLevel] at h
  split at h
  · cases h
  · rcases bind_error h with ha | ⟨⟨x, w⟩, _, h⟩
    · exact ppAlloc_error ha
    · cases x with
      | none => cases h
      | some f => cases h

theorem mapPage_error (h : mapPage A v pml4 virt phys flags = .error e) :
    ∃ s, A.alloc s = .error e := by
  rcases bind_error h with h₁ | ⟨⟨r₁, v₁⟩, _, h⟩
  · exact getOrAllocateNextLevel_error h₁
  cases r₁ with
  | none => cases h
  | some pdpt =>
    rcases bind_error h with h₂ | ⟨⟨r₂, v₂⟩, _, h⟩
    · exact getOrAllocateNextLevel_error h₂
    cases r₂ with
    | none => cases h
    | some pd =>
      rcases bind_error h with h₃ | ⟨⟨r₃, v₃⟩, _, h⟩
      · exact getOrAllocateNextLevel_error h₃
      cases r₃ with
      | none => cases h
      | some pt => cases h

theorem growLoop_error (h₀ : growLoop A virt n h = .error e) : FromBelow A e := by
  induction n generalizing virt h with
  | zero => cases h₀
  | succ n ih =>
    rcases bind_error h₀ with ha | ⟨⟨x, w⟩, _, h₀⟩
    · exact .inr (ppAlloc_error ha)
    cases x with
    | none => cases h₀
    | some f =>
      rcases bind_error h₀ with hm | ⟨⟨y, u⟩, _, h₀⟩
      · exact .inr (mapPage_error hm)
      cases y with
      | false =>
        cases h₀
        exact .inl rfl
      | true => exact ih h₀

section HeapInv
variable (hi : HeapInv A h live l)
include hi

theorem HeapInv.grow_error (h₀ : heapGrowPages A h n = .error e) : FromBelow A e := by
  rw [heapGrowPages] at h₀
  split at h₀
  · cases h₀
  · next hn =>
    rw [u64_of_lt hi.stop_lt] at h₀
    rcases bind_error h₀ with hloop | ⟨⟨x, g⟩, hloop, h₀⟩
    · exact growLoop_error hloop
    cases x with
    | false => cases h₀
    | true =>
      obtain ⟨w, hw, _⟩ := hi.grown hloop (Nat.pos_of_ne_zero hn)
      rcases bind_error h₀ with hno | ⟨_, _, h₀⟩
      · rw [hw] at hno
        cases hno
      · cases h₀

theorem HeapInv.kmallocLoop_error (h₀ : kmallocLoop A total fuel h = .error e)
    (hf : pageSize * maxPages < h.heapSize + fuel * pageSize) : FromBelow A e := by
  induction fuel generalizing h l with
  | zero =>
    have hs := hi.backed
    have hm := Nat.mul_le_mul_left pageSize (h.vmm.inUse_le (A := A))
    omega
  | succ fuel ih =>
    rcases bind_error h₀ with hfit | ⟨r, hfit, h₀⟩
    · rcases findFit_cases total 0 hi.chained.links hi.chained.nonzero
        hi.length_lt with ⟨hnone, _⟩ | ⟨_, _, _, _, _, _, hsome⟩
      · rw [hnone] at hfit
        cases hfit
      · rw [hsome] at hfit
        cases hfit
    cases r with
    | some x => cases h₀
    | none =>
      rcases bind_error h₀ with hgrow | ⟨⟨y, g⟩, hgrow, h₀⟩
      · exact hi.grow_error hgrow
      obtain ⟨⟨l', hg⟩, hk, hsize⟩ := hi.grow hgrow (by decide)
      rw [Nat.succ_mul] at hf
      cases y with
      | true =>
        apply ih hg h₀
        rw [hsize rfl]
        omega
      | false =>
        rcases bind_error h₀ with hgrow' | ⟨⟨z, w⟩, hgrow', h₀⟩
        · exact hg.grow_error hgrow'
        obtain ⟨⟨l'', hw⟩, _, hsize'⟩ := hg.grow hgrow' (by decide)
        cases z with
        | true =>
          apply ih hw h₀
          have hle := hk.size
          rw [hsize' rfl]
          omega
        | false => cases h₀

theorem HeapInv.kmalloc_error (h₀ : kmalloc A h size = .error e) : FromBelow A e := by
  rw [kmalloc] at h₀
  split at h₀
  · cases h₀
  · apply hi.kmallocLoop_error h₀
    rw [Nat.succ_mul, Nat.mul_comm]
    have hpos : 0 < pageSize := by decide
    omega

theorem HeapInv.kcalloc_error (h₀ : kcalloc A h num size = .error e) : FromBelow A e := by
  rw [kcalloc_eq] at h₀
  split at h₀
  · rcases bind_error h₀ with hm | ⟨⟨p, g⟩, _, h₀⟩
    · exact hi.kmalloc_error hm
    · dsimp only at h₀
      split at h₀ <;> cases h₀
  · cases h₀

theorem HeapInv.kfree_error (hp : LivePtr live ptr) (h₀ : kfree h ptr = .error e) : False := by
  rcases hp with rfl | ⟨n, hm⟩
  · rw [kfree, if_pos rfl] at h₀
    cases h₀
  · obtain ⟨w, hw, _⟩ := hi.of_kfree hm
    rw [hw] at h₀
    cases h₀

theorem HeapInv.krealloc_error (hp : LivePtr live ptr) (hle : size ≤ 2 ^ 64 - 32)
    (h₀ : krealloc A h ptr size = .error e) : FromBelow A e := by
  rcases hp with rfl | ⟨n, hm⟩
  · rw [krealloc, if_pos rfl] at h₀
    exact hi.kmalloc_error h₀
  · have hptr : ptr ≠ 0 := hi.not_null hm
    by_cases hs : size = 0
    · rw [krealloc, if_neg hptr, if_pos hs] at h₀
      rcases bind_error h₀ with hf | ⟨_, _, h₀⟩
      · exact (hi.kfree_error (.inr ⟨n, hm⟩) hf).elim
      · cases h₀
    · rw [hi.krealloc_eq hm hs] at h₀
      split at h₀
      · cases h₀
      · next hbig =>
        rcases bind_error h₀ with hk | ⟨⟨q, g⟩, hg, h₀⟩
        · exact hi.kmalloc_error hk
        dsimp only at h₀
        split at h₀
        · cases h₀
        · next hq =>
          obtain ⟨w, hw, _⟩ := hi.moved hm hg hq hle (Nat.le_of_lt (Nat.lt_of_not_le hbig))
          rcases bind_error h₀ with hf | ⟨_, _, h₀⟩
          · rw [hw] at hf
            cases hf
          · cases h₀

theorem HeapInv.call_error (ho : op.Allowed live) (h₀ : op.run A h = .error e) :
    FromBelow A e := by
  cases op with
  | kmalloc size => exact hi.kmalloc_error h₀
  | kcalloc num size => exact hi.kcalloc_error h₀
  | krealloc ptr newSize => exact hi.krealloc_error ho.1 ho.2 h₀
  | kfree ptr =>
    rcases bind_error h₀ with hf | ⟨_, _, h₀⟩
    · exact (hi.kfree_error ho hf).elim
    · cases h₀

theorem HeapInv.kmalloc_fits (hc : c ∈ l) (hs : size ≠ 0) (hfit : totalSize size ≤ c.size)
    (hle : size ≤ 2 ^ 64 - 32) : ∃ p h', kmalloc A h size = .ok (p, h') ∧ p ≠ 0 := by
  obtain ⟨hg, ha⟩ := totalSize_spec (Nat.pos_of_ne_zero hs) hle
  rcases findFit_cases (totalSize size) 0 hi.chained.links hi.chained.nonzero
    hi.length_lt with ⟨_, hnone⟩ | ⟨front, d, back, rfl, hd, _, hsome⟩
  · exact (Nat.not_lt_of_le hfit (hnone c hc)).elim
  · have hptr := (hi.take hg ha hd).1
    have hpos : d.addr + headerSize ≠ 0 := Nat.ne_of_gt (Nat.add_pos_right _ (by decide))
    refine ⟨d.addr + headerSize, takeBlock h (totalSize size) (lastAddr 0 front) d.addr, ?_, hpos⟩
    rw [kmalloc, if_neg hs, kmallocLoop, hsome]
    change Except.ok (u64 (d.addr + headerSize), _) = _
    rw [hptr]

end HeapInv

/-- The only free block serves a request and keeps what is left. -/
theorem HeapInv.kmallocLoop_split (hi : HeapInv A h live [c]) (hg : heapAlignment ∣ total)
    (ha : req + headerSize ≤ total) (hroom : total + 16 ≤ c.size) (fuel : Nat) :
    ∃ h', kmallocLoop A total (fuel + 1) h = .ok (c.addr + headerSize, h') ∧ h'.vmm = h.vmm ∧
      h'.heapSize = h.heapSize ∧ HeapInv A h' ((c.addr + headerSize, req) :: live)
        [⟨c.addr + total, c.size - total⟩] := by
  have hc : c ∈ [c] := List.mem_singleton_self c
  rcases findFit_cases total 0 hi.chained.links hi.chained.nonzero
    hi.length_lt with ⟨_, hnone⟩ | ⟨front, d, back, hl, hd, _, hsome⟩
  · have hsmall := hnone c hc
    omega
  · obtain ⟨rfl, rfl, rfl⟩ : front = [] ∧ d = c ∧ back = [] := by
      cases front with
      | nil =>
        cases hl
        exact ⟨rfl, rfl, rfl⟩
      | cons e front =>
        obtain ⟨_, hnil⟩ := List.cons.inj hl
        exact (List.append_ne_nil_of_right_ne_nil _ (List.cons_ne_nil _ _) hnil.symm).elim
    have hfirst : HeapInv A h live ([] ++ d :: []) := hi
    have hptr := (hfirst.take hg ha hd).1
    obtain ⟨hinv, hedit⟩ := hfirst.carve hg ha hroom
    refine ⟨takeBlock h total 0 d.addr, ?_, hedit.vmm, hedit.size, hinv⟩
    rw [kmallocLoop, hsome]
    change Except.ok (u64 (d.addr + headerSize), _) = _
    rw [hptr]
    rfl

theorem HeapInv.kmalloc_split (hi : HeapInv A h live [c]) (hs : size ≠ 0)
    (hle : size ≤ 2 ^ 64 - 32) (hroom : totalSize size + 16 ≤ c.size) :
    ∃ p h', kmalloc A h size = .ok (p, h') ∧ p ≠ 0 ∧ h'.vmm = h.vmm ∧
      h'.heapSize = h.heapSize ∧ HeapInv A h' ((p, size) :: live)
        [⟨c.addr + totalSize size, c.size - totalSize size⟩] := by
  obtain ⟨hg, ha⟩ := totalSize_spec (Nat.pos_of_ne_zero hs) hle
  obtain ⟨h', hloop, hrest⟩ := hi.kmallocLoop_split hg ha hroom maxPages
  have hpos : c.addr + headerSize ≠ 0 := Nat.ne_of_gt (Nat.add_pos_right _ (by decide))
  refine ⟨c.addr + headerSize, h', ?_, hpos, hrest⟩
  rw [kmalloc, if_neg hs]
  exact hloop

theorem growLoop_lasts (virt : Nat) (hl : A.Lasts (m + n * 4) h.vmm.frames) :
    ∃ h', growLoop A virt n h = .ok (true, h') ∧ A.Lasts m h'.vmm.frames := by
  induction n generalizing virt h with
  | zero => exact ⟨h, rfl, hl⟩
  | succ n ih =>
    rw [Nat.succ_mul, ← Nat.add_assoc] at hl
    obtain ⟨f, s, ha, hl⟩ := hl
    have halloc : ∃ v, h.vmm.ppAlloc A = .ok (some f, v) ∧ v.frames = s := by
      refine ⟨_, bind_of_ok ha _, rfl⟩
    obtain ⟨v, hv, rfl⟩ := halloc
    obtain ⟨u, hm, hlast, _⟩ := mapPage_lasts hl h.pml4 (BitVec.ofNat 64 virt) f.addr
      (ptePresent ||| pteWritable ||| pteNx)
    have hrest : ∀ m', ∃ h', growLoop A (virt + pageSize) n { h with vmm := u, bytes := m' } =
        .ok (true, h') ∧ A.Lasts m h'.vmm.frames := fun m' => ih _ hlast
    obtain ⟨h', hloop, hleft⟩ := hrest (fill h.bytes (u64 virt / pageSize * pageSize) pageSize)
    refine ⟨h', ?_, hleft⟩
    rw [growLoop]
    refine (bind_of_ok hv _).trans ?_
    exact (bind_of_ok hm _).trans hloop

theorem HeapInv.grow_lasts (hi : HeapInv A h live l) (hn : 0 < n)
    (hl : A.Lasts (m + n * 4) h.vmm.frames) : ∃ h', heapGrowPages A h n = .ok (true, h') ∧
      h'.heapSize = h.heapSize + n * pageSize ∧ A.Lasts m h'.vmm.frames := by
  obtain ⟨g, hloop, hleft⟩ := growLoop_lasts (h.heapStart + h.heapSize) hl
  obtain ⟨w, hw, hsize, _⟩ := hi.grown hloop hn
  rw [heapGrowPages, if_neg (Nat.ne_of_gt hn), u64_of_lt hi.stop_lt]
  exact ⟨_, (bind_of_ok hloop _).trans (bind_of_ok hw _), hsize, (addRegion_edits hw).vmm ▸ hleft⟩

theorem setupHeap_lasts (hb : HhdmPlaced higherHalf) (hl : A.Lasts (m + 256 * 4) v.frames)
    (pml4 : BitVec 64) (bytes : Mem) :
    ∃ h, setupHeap A higherHalf (Heap.initial v pml4 bytes) = .ok h ∧
      h.heapSize = 256 * pageSize ∧ A.Lasts m h.vmm.frames := by
  have hinit := HeapInv.initial (A := A) v pml4 bytes hb
  obtain ⟨g, hgrow, hsize, hleft⟩ := hinit.grow_lasts (n := 256) (by decide) hl
  exact ⟨_, bind_of_ok hgrow _, hsize.trans (Nat.zero_add _), hleft⟩

theorem hhdmPlaced_default : HhdmPlaced 0xffff800000000000 := ⟨by decide, by decide⟩

theorem HeapRun.split (hr : HeapRun A higherHalf h live) (hi : HeapInv A h live [c])
    (hs : size ≠ 0) (hle : size ≤ 2 ^ 64 - 32) (hroom : totalSize size + 16 ≤ c.size) :
    ∃ p h', p ≠ 0 ∧ HeapRun A higherHalf h' ((p, size) :: live) ∧
      HeapInv A h' ((p, size) :: live) [⟨c.addr + totalSize size, c.size - totalSize size⟩] := by
  obtain ⟨p, h', hk, hp, _, _, hi'⟩ := hi.kmalloc_split hs hle hroom
  have hallowed : HeapOp.Allowed live (.kmalloc size) := hle
  have hcall := hr.call hallowed hk
  rw [HeapOp.after, given, if_neg hp] at hcall
  exact ⟨p, h', hp, hcall, hi'⟩

theorem heapRun_twoBlocks : ∃ (h : Heap (OwnedPmm oneChunk)) (p q : Nat) (c : Block),
    p ≠ 0 ∧ q ≠ 0 ∧
    HeapRun (pmmFrames oneChunk_sound) 0xffff800000000000 h [(q, 100), (p, 24)] ∧
    HeapInv (pmmFrames oneChunk_sound) h [(q, 100), (p, 24)] [c] ∧ 4096 ≤ c.size := by
  obtain ⟨x, _, hl⟩ := oneChunk_frames
  obtain ⟨h, hh, hlarge, _⟩ := setupHeap_lasts (m := 0) (v := ⟨fun _ _ => 0, x, []⟩)
    hhdmPlaced_default (hl.mono (by decide)) 0x1002000 fun _ => 0
  have hr : HeapRun (pmmFrames oneChunk_sound) 0xffff800000000000 h [] := .start hh
  obtain ⟨⟨l, hi⟩, _, hpos⟩ := hr.inv hhdmPlaced_default
  have hwhole := hi.tiling.eq_whole (Nat.lt_add_of_pos_right hpos)
  rw [Nat.add_sub_cancel_left] at hwhole
  rw [hwhole, hlarge] at hi
  have hsizes : pageSize = 4096 ∧ totalSize 24 = 48 ∧ totalSize 100 = 128 := by decide
  obtain ⟨p, h₁, hp, hr₁, hi₁⟩ := hr.split hi (show 24 ≠ 0 by decide) (by decide)
    (by dsimp only; omega)
  obtain ⟨q, h₂, hq, hr₂, hi₂⟩ := hr₁.split hi₁ (show 100 ≠ 0 by decide) (by decide)
    (by dsimp only; omega)
  refine ⟨h₂, p, q, _, hp, hq, hr₂, hi₂, ?_⟩
  dsimp only
  omega

theorem heapRun_hole : ∃ (h : Heap (OwnedPmm oneChunk)) (p r : Nat), p ≠ 0 ∧ r ≠ 0 ∧
    HeapRun (pmmFrames oneChunk_sound) 0xffff800000000000 h [(r, 40), (p, 24)] := by
  obtain ⟨h, p, q, c, hp, hq, hr, hi, hlarge⟩ := heapRun_twoBlocks
  have hroom : totalSize 40 = 64 := by decide
  obtain ⟨r, h₁, hr0, hr₁, hi₁⟩ := hr.split hi (show 40 ≠ 0 by decide) (by decide) (by omega)
  have hlive : (q, 100) ∈ [(r, 40), (q, 100), (p, 24)] := .tail _ (.head _)
  obtain ⟨h₂, hfree, _⟩ := hi₁.of_kfree hlive
  have hallowed : HeapOp.Allowed [(r, 40), (q, 100), (p, 24)] (.kfree q) := .inr ⟨100, hlive⟩
  have hrun : HeapOp.run (pmmFrames oneChunk_sound) h₁ (.kfree q) = .ok (0, h₂) := by
    rw [HeapOp.run, hfree]
    rfl
  have hcall := hr₁.call hallowed hrun
  have hdistinct := hi₁.distinct
  rw [List.pairwise_cons, List.pairwise_cons] at hdistinct
  have hrq : r ≠ q := hdistinct.1 _ (.head _)
  have hqp : q ≠ p := hdistinct.2.1 _ (.head _)
  have hdropped : dropped q [(r, 40), (q, 100), (p, 24)] = [(r, 40), (p, 24)] := by
    simp [dropped, hrq, hqp.symm]
  rw [HeapOp.after, hdropped] at hcall
  exact ⟨h₂, p, r, hp, hr0, hcall⟩

end AdaOS
