import Mathlib.Data.List.Pairwise
import AdaOS.HeapGrowth

namespace AdaOS
set_option autoImplicit true
open ByteMem Blocks

/-- The live pointers after a block for `size` bytes was handed out at `ptr`, or refused. -/
def given (ptr size : Nat) (live : List (Nat × Nat)) : List (Nat × Nat) :=
  if ptr = 0 then live else (ptr, size) :: live

/-- The live pointers after the block at `ptr` was freed. -/
def dropped (ptr : Nat) (live : List (Nat × Nat)) : List (Nat × Nat) :=
  live.filter fun e => e.1 ≠ ptr

variable {σ : Type} {A : FrameAllocator σ} {h h' : Heap σ} {live live' : List (Nat × Nat)}
  {l front back : List Block} {c : Block} {e : Nat × Nat}

theorem perm_dropped (hd : live.Pairwise fun e e' => e.1 ≠ e'.1) (he : e ∈ live) :
    live.Perm (e :: dropped e.1 live) := by
  induction live with
  | nil => cases he
  | cons x live ih =>
    obtain ⟨hx, hd⟩ := List.pairwise_cons.1 hd
    rcases List.mem_cons.1 he with rfl | he
    · have hall : dropped e.1 live = live :=
        List.filter_eq_self.2 fun y hy => decide_eq_true (hx y hy).symm
      rw [dropped, List.filter_cons_of_neg (by simp), ← dropped, hall]
    · have hne : x.1 ≠ e.1 := hx e he
      rw [dropped, List.filter_cons_of_pos (by simpa using hne), ← dropped]
      exact ((ih hd he).cons x).trans (.swap ..)

section HeapInv
variable (hi : HeapInv A h live l)
include hi

theorem HeapInv.block (he : e ∈ live) : (blockOf h.bytes e.1).addr + 16 = e.1 ∧
    h.heapStart ≤ (blockOf h.bytes e.1).addr ∧
    (blockOf h.bytes e.1).stop ≤ h.heapStart + h.heapSize ∧
    e.1 + e.2 ≤ (blockOf h.bytes e.1).stop ∧ 16 ≤ (blockOf h.bytes e.1).size ∧ 16 ∣ e.1 := by
  have hb : blockOf h.bytes e.1 ∈ h.used live := List.mem_map_of_mem he
  obtain ⟨hlo, hhi⟩ := hi.tiling.within _ hb
  have hpos := hi.positive
  have hasked := hi.asked e he
  have hheader : headerSize = 16 := rfl
  have haddr : (blockOf h.bytes e.1).addr = e.1 - 16 := rfl
  have hptr : (blockOf h.bytes e.1).addr + 16 = e.1 := by omega
  have hstop : (blockOf h.bytes e.1).stop =
      (blockOf h.bytes e.1).addr + (blockOf h.bytes e.1).size := rfl
  refine ⟨hptr, hlo, hhi, by omega, hi.room (List.mem_append_left _ hb), ?_⟩
  rw [← hptr]
  exact Nat.dvd_add (hi.tiling.grain _ (List.mem_append_left _ hb)).1 (by decide)

theorem HeapInv.distinct : live.Pairwise fun e e' => e.1 ≠ e'.1 := by
  apply (List.pairwise_map.1 hi.tiling.apart).imp_of_mem
  intro e e' he _ hap hsame
  rw [hsame] at hap
  obtain ⟨_, _, _, _, hroom, _⟩ := hi.block he
  rw [hsame] at hroom
  have hstop : (blockOf h.bytes e'.1).stop =
      (blockOf h.bytes e'.1).addr + (blockOf h.bytes e'.1).size := rfl
  rcases hap with hap | hap <;> omega

theorem HeapInv.apart (he : e ∈ live) {e' : Nat × Nat} (he' : e' ∈ live) (hne : e.1 ≠ e'.1) :
    (blockOf h.bytes e.1).Apart (blockOf h.bytes e'.1) := by
  have hsymm : Std.Symm fun e e' : Nat × Nat =>
      (blockOf h.bytes e.1).Apart (blockOf h.bytes e'.1) := ⟨fun _ _ hap => hap.symm⟩
  apply (List.pairwise_map.1 hi.tiling.apart).forall he he'
  rintro rfl
  exact hne rfl

theorem HeapInv.perm (hp : live.Perm live') : HeapInv A h live' l :=
  ⟨hi.chained, hi.tiling.perm (hp.map _), fun e he => hi.asked e (hp.mem_iff.2 he), hi.pages,
    hi.positive, hi.bounded, hi.backed⟩

theorem HeapInv.keeps (he : Edits (Covers l) h h') : Keeps (h.used live) h h' :=
  .of_edits he fun _ hb _ hc => hi.tiling.apart_free hb hc

theorem HeapInv.taken (hc : h'.Chained l') (hs : h'.sizeAt c.addr = n)
    (he : Edits (Covers l) h h') (ha : req + headerSize ≤ n)
    (ht : Tiling heapAlignment h.heapStart (h.heapStart + h.heapSize)
      (⟨c.addr, n⟩ :: h.used live) l') :
    HeapInv A h' ((c.addr + headerSize, req) :: live) l' := by
  have hu := (hi.keeps he).used_eq fun b hb => hi.room (List.mem_append_left _ hb)
  have hnew : blockOf h'.bytes (c.addr + headerSize) = ⟨c.addr, n⟩ := by
    rw [blockOf, Nat.add_sub_cancel]
    exact congrArg (Block.mk c.addr) hs
  have hused : h'.used ((c.addr + headerSize, req) :: live) = ⟨c.addr, n⟩ :: h.used live := by
    rw [Heap.used, List.map_cons, hnew, ← Heap.used, hu]
  refine hi.edited he hc ?_ (List.forall_mem_cons.2 ⟨?_, fun e hel => ?_⟩)
  · rw [hused]
    exact ht
  · rw [hnew]
    exact ha
  · rw [List.map_inj_left.1 hu e hel]
    exact hi.asked e hel

end HeapInv

theorem HeapInv.carve (hi : HeapInv A h live (front ++ c :: back)) (hg : heapAlignment ∣ total)
    (ha : req + headerSize ≤ total) (hsplit : total + 16 ≤ c.size) :
    HeapInv A (takeBlock h total (lastAddr 0 front) c.addr) ((c.addr + headerSize, req) :: live)
        (front ++ ⟨c.addr + total, c.size - total⟩ :: back) ∧
      Edits (Covers (front ++ c :: back)) h (takeBlock h total (lastAddr 0 front) c.addr) := by
  have hheader : headerSize = 16 := rfl
  have hsub : front ++ [c] ⊆ front ++ c :: back := by simp
  obtain ⟨hlist, hsize, hedit⟩ := takeBlock_split hi.chained hsplit (by omega)
  have hedit' := hedit.mono fun a hcov => Covers.mono hcov hsub
  exact ⟨hi.taken hlist hsize hedit' ha (hi.tiling.split (by omega) (by omega) hg), hedit'⟩

/-- The block `kmalloc` has found comes into use. -/
theorem HeapInv.take (hi : HeapInv A h live (front ++ c :: back)) (hg : heapAlignment ∣ total)
    (ha : req + headerSize ≤ total) (hle : total ≤ c.size) :
    u64 (c.addr + headerSize) = c.addr + headerSize ∧ (∃ l', HeapInv A
      (takeBlock h total (lastAddr 0 front) c.addr) ((c.addr + headerSize, req) :: live) l') ∧
      Keeps (h.used live) h (takeBlock h total (lastAddr 0 front) c.addr) := by
  have hc : c ∈ front ++ c :: back := by simp
  have hheader : headerSize = 16 := rfl
  have halign : heapAlignment = 16 := rfl
  have hin := (hi.tiling.free_within hc).2
  have hstop := hi.stop_lt
  have hcstop : c.stop = c.addr + c.size := rfl
  refine ⟨u64_of_lt (by omega), ?_⟩
  by_cases hsplit : total + 16 ≤ c.size
  · obtain ⟨hinv, hedit⟩ := hi.carve hg ha hsplit
    exact ⟨⟨_, hinv⟩, hi.keeps hedit⟩
  · have hbound := hi.bounded
    have hbacked := hi.backed
    have hmax := Nat.mul_le_mul_left pageSize (h.vmm.inUse_le (A := A))
    have hlo := (hi.tiling.free_within hc).1
    have hpages : pageSize * maxPages = 2 ^ 32 := by decide
    have hsub : front ++ [c] ⊆ front ++ c :: back := by simp
    obtain ⟨hlist, hsize, hedit⟩ := takeBlock_whole hi.chained (Nat.lt_of_not_le hsplit)
      (by omega)
    have hedit' := hedit.mono fun a hcov => Covers.mono hcov hsub
    exact ⟨⟨_, hi.taken hlist hsize hedit' (ha.trans hle) hi.tiling.take⟩, hi.keeps hedit'⟩

/-- Every outcome of the search and the retries of `kmalloc`. -/
theorem HeapInv.of_kmallocLoop (hi : HeapInv A h live l)
    (h₀ : kmallocLoop A total fuel h = .ok (p, h')) (hg : heapAlignment ∣ total)
    (ha : req + headerSize ≤ total) :
    (∃ l', HeapInv A h' (given p req live) l') ∧ Keeps (h.used live) h h' := by
  induction fuel generalizing h l with
  | zero => cases h₀
  | succ fuel ih =>
    have hretry : ∀ {x y : Heap σ} {l' n r}, HeapInv A x live l' →
        heapGrowPages A x n = .ok (r, y) → 0 < n → kmallocLoop A total fuel y = .ok (p, h') →
        (∃ l', HeapInv A h' (given p req live) l') ∧ Keeps (x.used live) x h' := by
      intro x y l' n r hx hgrow hn hloop
      obtain ⟨⟨_, hy⟩, hk, _⟩ := hx.grow hgrow hn
      obtain ⟨hinv, hk'⟩ := ih hy hloop
      rw [hk.used_eq fun b hb => hx.room (List.mem_append_left _ hb)] at hk'
      exact ⟨hinv, hk.trans hk'⟩
    obtain ⟨r, hfit, h₀⟩ := bind_ok h₀
    rcases findFit_cases total 0 hi.chained.links hi.chained.nonzero
      hi.length_lt with ⟨hnone, _⟩ | ⟨front, c, back, rfl, hle, _, hsome⟩
    · rw [hnone] at hfit
      cases hfit
      obtain ⟨⟨r, g⟩, hgrow, h₀⟩ := bind_ok h₀
      cases r with
      | true => exact hretry hi hgrow (by decide) h₀
      | false =>
        obtain ⟨⟨l', hg'⟩, hk, _⟩ := hi.grow hgrow (by decide)
        have hu := hk.used_eq fun b hb => hi.room (List.mem_append_left _ hb)
        obtain ⟨⟨r, w⟩, hgrow', h₀⟩ := bind_ok h₀
        cases r with
        | true =>
          obtain ⟨hinv, hk'⟩ := hretry hg' hgrow' (by decide) h₀
          rw [hu] at hk'
          exact ⟨hinv, hk.trans hk'⟩
        | false =>
          cases h₀
          obtain ⟨hinv, hk', _⟩ := hg'.grow hgrow' (by decide)
          rw [hu] at hk'
          exact ⟨hinv, hk.trans hk'⟩
    · rw [hsome] at hfit
      cases hfit
      obtain ⟨hptr, hinv, hk⟩ := hi.take hg ha hle
      cases h₀
      rw [hptr, given, if_neg (Nat.ne_of_gt (Nat.add_pos_right _ (by decide)))]
      exact ⟨hinv, hk⟩

theorem totalSize_spec (hs : 0 < size) (hle : size ≤ 2 ^ 64 - 32) :
    heapAlignment ∣ totalSize size ∧ size + headerSize ≤ totalSize size := by
  have halign : heapAlignment = 16 := rfl
  have hheader : headerSize = 16 := rfl
  have hmin : minAllocSize = 16 := rfl
  have hdvd := alignUp_dvd size heapAlignment
  have hlow := le_alignUp (show size + heapAlignment ≤ 2 ^ 64 by omega) (by decide)
  have hhigh := alignUp_lt (show size + heapAlignment ≤ 2 ^ 64 by omega) (by decide)
  have hsum : u64 (alignUpHeap size + headerSize) = alignUpHeap size + headerSize := by
    rw [alignUpHeap, u64_of_lt (by omega)]
  rw [totalSize, hsum, alignUpHeap, hmin, if_neg (by omega)]
  exact ⟨Nat.dvd_add hdvd (by decide), by omega⟩

theorem HeapInv.of_kmalloc (hi : HeapInv A h live l) (h₀ : kmalloc A h size = .ok (p, h'))
    (hle : size ≤ 2 ^ 64 - 32) :
    (∃ l', HeapInv A h' (given p size live) l') ∧ Keeps (h.used live) h h' := by
  rw [kmalloc] at h₀
  split at h₀
  · cases h₀
    exact ⟨⟨l, hi⟩, .refl⟩
  · next hs =>
    obtain ⟨hg, ha⟩ := totalSize_spec (Nat.pos_of_ne_zero hs) hle
    exact hi.of_kmallocLoop h₀ hg ha

/-- Writes inside the requested sizes of live blocks do not disturb the heap. -/
theorem HeapInv.write (hi : HeapInv A h live l)
    (hm : ∀ a, (∀ e ∈ live, a < e.1 ∨ e.1 + e.2 ≤ a) → m a = h.bytes a) :
    HeapInv A { h with bytes := m } live l := by
  have hword : ∀ e ∈ live, blockOf m e.1 = blockOf h.bytes e.1 := by
    intro e he
    obtain ⟨haddr, _, _, _, hroom, _⟩ := hi.block he
    have hstop : (blockOf h.bytes e.1).stop =
      (blockOf h.bytes e.1).addr + (blockOf h.bytes e.1).size := rfl
    apply congrArg (Block.mk _)
    apply word_congr
    intro i hlt
    change m ((blockOf h.bytes e.1).addr + i) = _
    apply hm
    intro e' he'
    obtain ⟨haddr', _, _, hend, _, _⟩ := hi.block he'
    by_cases hsame : e.1 = e'.1
    · omega
    · rcases hi.apart he he' hsame with hap | hap <;> omega
  have hused : Heap.used { h with bytes := m } live = h.used live := List.map_congr_left hword
  refine ⟨hi.chained.congr rfl ?_, ?_, fun e he => ?_, hi.pages, hi.positive, hi.bounded,
    hi.backed⟩
  · intro a hcov
    obtain ⟨b, hb, hba⟩ := hcov
    apply hm
    intro e he
    obtain ⟨haddr, _, _, hend, _, _⟩ := hi.block he
    have hno := (hi.tiling.apart_free (List.mem_map_of_mem he) hb).symm.not_has hba
    by_contra hin
    exact hno ⟨by omega, by omega⟩
  · rw [hused]
    exact hi.tiling
  · rw [hword e he]
    exact hi.asked e he

theorem HeapInv.released (hi : HeapInv A h (e :: live) l) (h' : Heap σ)
    (hc : h'.Chained (place (blockOf h.bytes e.1) l))
    (hedit : Edits (Covers (blockOf h.bytes e.1 :: l)) h h') :
    HeapInv A h' live (place (blockOf h.bytes e.1) l) ∧ Keeps (h.used live) h h' := by
  have hap := (List.pairwise_cons.1 hi.tiling.apart).1
  have hk : Keeps (h.used live) h h' := by
    apply Keeps.of_edits hedit
    intro b hb
    exact List.forall_mem_cons.2 ⟨(hap b hb).symm, fun c hcl =>
      hi.tiling.apart_free (List.mem_cons_of_mem _ hb) hcl⟩
  have hu := hk.used_eq fun b hb =>
    hi.room (List.mem_append_left _ (List.mem_cons_of_mem _ hb))
  refine ⟨hi.edited hedit hc ?_ fun e' he' => ?_, hk⟩
  · rw [hu]
    exact hi.tiling.release
  · rw [List.map_inj_left.1 hu e' he']
    exact hi.asked e' (List.mem_cons_of_mem _ he')

/-- `kfree` of a live pointer returns, and its block goes back to the free list. -/
theorem HeapInv.of_kfree (hi : HeapInv A h live l) (he : e ∈ live) :
    ∃ h', kfree h e.1 = .ok h' ∧ (∃ l', HeapInv A h' (dropped e.1 live) l') ∧
      Keeps (h.used (dropped e.1 live)) h h' := by
  obtain ⟨haddr, hlo, hhi, _, hroom, hdvd⟩ := hi.block he
  have hstop := hi.stop_lt
  have hpos := hi.positive
  have hap : ∀ c ∈ l, (blockOf h.bytes e.1).Apart c := fun c hc =>
    hi.tiling.apart_free (List.mem_map_of_mem he) hc
  have hsize : h.sizeAt (blockOf h.bytes e.1).addr = (blockOf h.bytes e.1).size := rfl
  have hreleased := (hi.perm (perm_dropped hi.distinct he)).released
  generalize blockOf h.bytes e.1 = b at *
  have hbstop : b.stop = b.addr + b.size := rfl
  have hheader : headerSize = 16 := rfl
  have hmin : minAllocSize = 16 := rfl
  have hgrain : b.addr % heapAlignment = 0 := by
    rw [show heapAlignment = 16 from rfl]
    omega
  have hstart : sub64 e.1 headerSize = b.addr := by
    rw [sub64_of_le (by omega) (by omega)]
    omega
  obtain ⟨prev, hfind, hlink⟩ := linkBlock_spec hi.chained hi.tiling.spaced hap hroom (by omega)
    (by omega) hi.length_lt
  have hedit : Edits b.Has h (h.setSize b.addr b.size) := .setSize hroom
  have hchain : (h.setSize b.addr b.size).Chained l := hi.chained.keep hedit rfl hap
  obtain ⟨hplace, hedit'⟩ := hlink _ hchain (Heap.sizeAt_setSize (by omega))
  have hedits := (hedit.mono fun a ha => covers_cons.2 (.inl ha)).trans hedit'
  obtain ⟨hinv, hk⟩ := hreleased _ hplace hedits
  refine ⟨linkBlock (h.setSize b.addr b.size) prev b.addr, ?_, ⟨_, hinv⟩, hk⟩
  rw [kfree, if_neg (by omega), hstart]
  dsimp only
  rw [hsize, hmin, if_neg (by rw [u64_of_lt hstop]; omega), if_neg (by omega), if_neg (by omega),
    hfind]
  rfl

theorem HeapInv.of_kmalloc_block (hi : HeapInv A h live l) (h₀ : kmalloc A h size = .ok (p, h'))
    (hle : size ≤ 2 ^ 64 - 32) (hp : p ≠ 0) :
    (∃ l', HeapInv A h' ((p, size) :: live) l') ∧ Keeps (h.used live) h h' := by
  have hstep := hi.of_kmalloc h₀ hle
  rw [given, if_neg hp] at hstep
  exact hstep

theorem HeapInv.write_new (hi : HeapInv A h (e :: live) l)
    (hm : ∀ a, a < e.1 ∨ e.1 + e.2 ≤ a → m a = h.bytes a) :
    HeapInv A { h with bytes := m } (e :: live) l ∧
      Keeps (h.used live) h { h with bytes := m } := by
  constructor
  · apply hi.write
    intro a ha
    exact hm a (ha e (List.mem_cons_self ..))
  · refine ⟨rfl, Nat.le_refl _, ?_⟩
    intro a hcov
    obtain ⟨b, hb, hba⟩ := hcov
    apply hm
    obtain ⟨haddr, _, _, hend, _, _⟩ := hi.block (List.mem_cons_self ..)
    have hno := ((List.pairwise_cons.1 hi.tiling.apart).1 b hb).symm.not_has hba
    change ¬(blockOf h.bytes e.1).Has a at hno
    by_contra hin
    exact hno ⟨by omega, by omega⟩

theorem kcalloc_eq (A : FrameAllocator σ) (h : Heap σ) (num size : Nat) :
    kcalloc A h num size =
      (if num * size < 2 ^ 64 then do
        let (p, g) ← kmalloc A h (num * size)
        if p = 0 then .ok (0, g) else .ok (p, { g with bytes := fill g.bytes p (num * size) })
      else .ok (0, h)) := by
  rw [kcalloc]
  by_cases hov : size ≠ 0 ∧ num > (2 ^ 64 - 1) / size
  · have hbig := (Nat.div_lt_iff_lt_mul (Nat.pos_of_ne_zero hov.1)).1 hov.2
    rw [if_pos hov, if_neg (by omega)]
  · have hlt : num * size < 2 ^ 64 := by
      rw [not_and, Nat.not_lt] at hov
      rcases Nat.eq_zero_or_pos size with rfl | hpos
      · rw [Nat.mul_zero]
        decide
      · have hmul := (Nat.le_div_iff_mul_le hpos).1 (hov (Nat.ne_of_gt hpos))
        omega
    rw [if_neg hov, if_pos hlt, u64_of_lt hlt]

theorem HeapInv.of_kcalloc (hi : HeapInv A h live l) (h₀ : kcalloc A h num size = .ok (p, h'))
    (hle : num * size < 2 ^ 64 → num * size ≤ 2 ^ 64 - 32) :
    (∃ l', HeapInv A h' (given p (num * size) live) l') ∧ Keeps (h.used live) h h' := by
  rw [kcalloc_eq] at h₀
  split at h₀
  · next hlt =>
    obtain ⟨⟨q, g⟩, hg, h₀⟩ := bind_ok h₀
    simp only at h₀
    split at h₀
    · next hq =>
      cases h₀
      have hstep := hi.of_kmalloc hg (hle hlt)
      rw [hq] at hstep
      exact hstep
    · next hq =>
      cases h₀
      obtain ⟨⟨l', hig⟩, hk⟩ := hi.of_kmalloc_block hg (hle hlt) hq
      obtain ⟨hw, hk'⟩ := hig.write_new (m := fill g.bytes p (num * size))
        fun a ha => fill_of_outside ha
      rw [hk.used_eq fun b hb => hi.room (List.mem_append_left _ hb)] at hk'
      rw [given, if_neg hq]
      exact ⟨⟨l', hw⟩, hk.trans hk'⟩
  · cases h₀
    exact ⟨⟨l, hi⟩, .refl⟩

theorem HeapInv.resize (hi : HeapInv A h (e :: live) l)
    (hn : n + headerSize ≤ (blockOf h.bytes e.1).size) : HeapInv A h ((e.1, n) :: live) l :=
  ⟨hi.chained, hi.tiling, List.forall_mem_cons.2 ⟨hn, (List.forall_mem_cons.1 hi.asked).2⟩,
    hi.pages, hi.positive, hi.bounded, hi.backed⟩

theorem dropped_subset : dropped ptr live ⊆ live := List.filter_subset_self _

theorem Keeps.mono (hk : Keeps (h.used live) h h') (hs : live' ⊆ live) :
    Keeps (h.used live') h h' := by
  refine ⟨hk.start, hk.size, ?_⟩
  intro a hcov
  obtain ⟨b, hb, hba⟩ := hcov
  exact hk.bytes a ⟨b, List.map_subset _ hs hb, hba⟩

/-- `krealloc` finds the old payload's size in the header. -/
theorem HeapInv.krealloc_eq (hi : HeapInv A h live l) (he : e ∈ live) (hs : size ≠ 0) :
    krealloc A h e.1 size =
      (if size ≤ (blockOf h.bytes e.1).size - 16 then .ok (e.1, h)
      else do
        let (p, g) ← kmalloc A h size
        if p = 0 then .ok (0, g)
        else
          let g ← kfree { g with
            bytes := copy g.bytes p e.1 ((blockOf h.bytes e.1).size - 16) } e.1
          .ok (p, g)) := by
  obtain ⟨haddr, hlo, hhi, hend, hroom, _⟩ := hi.block he
  have hpos := hi.positive
  have hstop := hi.stop_lt
  have hheader : headerSize = 16 := rfl
  have hbstop : (blockOf h.bytes e.1).stop =
    (blockOf h.bytes e.1).addr + (blockOf h.bytes e.1).size := rfl
  have hstart : sub64 e.1 headerSize = (blockOf h.bytes e.1).addr := by
    rw [sub64_of_le (by omega) (by omega)]
    omega
  have hsize : h.sizeAt (blockOf h.bytes e.1).addr = (blockOf h.bytes e.1).size := rfl
  have hpay : (if (blockOf h.bytes e.1).size ≥ headerSize then
      sub64 (blockOf h.bytes e.1).size headerSize else 0) = (blockOf h.bytes e.1).size - 16 := by
    rw [if_pos (by omega), sub64_of_le (by omega) (by omega), hheader]
  rw [krealloc, if_neg (by omega), if_neg hs, hstart]
  dsimp only
  rw [hsize, hpay]

theorem HeapInv.copied (hi : HeapInv A h live l) (hg : kmalloc A h size = .ok (p, h'))
    (hp : p ≠ 0) (hle : size ≤ 2 ^ 64 - 32) (hn : n ≤ size) (src : Nat) :
    (∃ l', HeapInv A { h' with bytes := copy h'.bytes p src n } ((p, size) :: live) l') ∧
      Keeps (h.used live) h { h' with bytes := copy h'.bytes p src n } := by
  obtain ⟨⟨l', hig⟩, hk⟩ := hi.of_kmalloc_block hg hle hp
  obtain ⟨hic, hkc⟩ := hig.write_new (m := copy h'.bytes p src n)
    fun a ha => copy_of_outside (by omega)
  rw [hk.used_eq fun b hb => hi.room (List.mem_append_left _ hb)] at hkc
  exact ⟨⟨l', hic⟩, hk.trans hkc⟩

theorem HeapInv.moved (hi : HeapInv A h live l) (he : e ∈ live)
    (hg : kmalloc A h size = .ok (p, h')) (hp : p ≠ 0) (hle : size ≤ 2 ^ 64 - 32)
    (hn : n ≤ size) : ∃ w, kfree { h' with bytes := copy h'.bytes p e.1 n } e.1 = .ok w ∧
      (∃ l', HeapInv A w ((p, size) :: dropped e.1 live) l') ∧
      Keeps (h.used (dropped e.1 live)) h w := by
  obtain ⟨⟨l', hic⟩, hkeep⟩ := hi.copied hg hp hle hn e.1
  obtain ⟨w, hw, hinv, hkw⟩ := hic.of_kfree (List.mem_cons_of_mem _ he)
  have hne : p ≠ e.1 := (List.pairwise_cons.1 hic.distinct).1 e he
  have hdrop : dropped e.1 ((p, size) :: live) = (p, size) :: dropped e.1 live :=
    List.filter_cons_of_pos (decide_eq_true hne)
  rw [hdrop] at hinv hkw
  have hsame := (hkeep.mono (show dropped e.1 live ⊆ live from dropped_subset)).used_eq fun b hb =>
    hi.room (List.mem_append_left _ (List.map_subset _ dropped_subset hb))
  have hrest := hkw.mono (List.subset_cons_self ..)
  rw [hsame] at hrest
  exact ⟨w, hw, hinv, (hkeep.mono dropped_subset).trans hrest⟩

/-- The outcomes of `krealloc` of a live pointer to a size other than 0. -/
theorem HeapInv.of_krealloc (hi : HeapInv A h live l) (he : e ∈ live)
    (h₀ : krealloc A h e.1 size = .ok (p, h')) (hs : size ≠ 0) (hle : size ≤ 2 ^ 64 - 32) :
    (∃ l', HeapInv A h' (if p = 0 then live else (p, size) :: dropped e.1 live) l') ∧
      Keeps (h.used (dropped e.1 live)) h h' := by
  obtain ⟨haddr, _, _, _, hroom, _⟩ := hi.block he
  rw [hi.krealloc_eq he hs] at h₀
  split at h₀
  · next hfit =>
    cases h₀
    have hheader : headerSize = 16 := rfl
    rw [if_neg (by omega)]
    exact ⟨⟨l, (hi.perm (perm_dropped hi.distinct he)).resize (by omega)⟩, .refl⟩
  · next hbig =>
    obtain ⟨⟨q, g⟩, hg, h₀⟩ := bind_ok h₀
    dsimp only at h₀
    split at h₀
    · next hq =>
      cases h₀
      obtain ⟨hinv, hk⟩ := hi.of_kmalloc hg hle
      rw [hq, given, if_pos rfl] at hinv
      exact ⟨hinv, hk.mono dropped_subset⟩
    · next hq =>
      obtain ⟨w, hw, hmoved⟩ := hi.moved he hg hq hle (Nat.le_of_lt (Nat.lt_of_not_le hbig))
      obtain ⟨w', hw', h₀⟩ := bind_ok h₀
      cases h₀
      rw [hw] at hw'
      cases hw'
      rw [if_neg hq]
      exact hmoved

end AdaOS
