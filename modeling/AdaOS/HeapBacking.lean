import AdaOS.AddressSpace
import AdaOS.HeapReturns

namespace AdaOS
set_option autoImplicit true
open Radix ByteMem

def heapPte : BitVec 64 := ptePresent ||| pteWritable ||| pteNx

/-- The page number of page `i` of a heap that starts at `start`. -/
def heapPage (start i : Nat) : BitVec 36 := pageNumber (BitVec.ofNat 64 (start + i * pageSize))

/-- The first `n` heap pages are mapped, each to a frame of its own. -/
structure Vmm.Backs (A : FrameAllocator σ) (v : Vmm σ) (root : BitVec 64) (start n : Nat)
    (M : PageMap) : Prop where
  maps : v.Maps A root M
  count : n ≤ v.inUse A
  frame : ∀ i < n, ∃ f ∈ A.held v.frames, M (heapPage start i) = some (f, heapPte)
  apart : ∀ i < n, ∀ j < n, M (heapPage start i) = M (heapPage start j) → i = j

/-- The heap is made of the first `n` pages, and they are backed. -/
structure Heap.Backed (A : FrameAllocator σ) (h : Heap σ) (n : Nat) (M : PageMap) : Prop where
  backs : h.vmm.Backs A h.pml4 h.heapStart n M
  size : h.heapSize = n * pageSize
  aligned : pageSize ∣ h.heapStart
  bounded : h.heapStart + pageSize * maxPages < 2 ^ 64

/-- The frames that the page loop of `heap_grow_pages` gets from `pp_alloc` for the heap's data, up
to the turn that fails. -/
def growFrames (A : FrameAllocator σ) : Nat → Nat → Heap σ → List (BitVec 64)
  | _, 0, _ => []
  | virt, n + 1, h =>
    match h.vmm.ppAlloc A with
    | .ok (some f, vmm) =>
      let rest :=
        match mapPage A vmm h.pml4 (BitVec.ofNat 64 virt) f.addr
            (ptePresent ||| pteWritable ||| pteNx) with
        | .ok (true, vmm) =>
          growFrames A (virt + pageSize) n
            { h with vmm := vmm, bytes := fill h.bytes (u64 virt / pageSize * pageSize) pageSize }
        | _ => []
      f.addr :: rest
    | _ => []

/-- Frames for the heap's pages from page `i` on, each with its page. -/
def pageFrames (i : Nat) (frames : List (BitVec 64)) : List (Nat × BitVec 64) :=
  (frames.zipIdx i).map Prod.swap

def lastFrame (i : Nat) (l : List (Nat × BitVec 64)) : Option (BitVec 64) := l.reverse.lookup i

/-- What heap pages that get these frames make of the entry of page `i`. -/
def regrow (i : Nat) (l : List (Nat × BitVec 64)) (e : Option (BitVec 64 × BitVec 64)) :
    Option (BitVec 64 × BitVec 64) :=
  ((lastFrame i l).map fun f => (f, heapPte)).or e

/-- `virt` is on none of the pages a heap has from page `n` on. -/
def OffHeap (start n : Nat) (virt : BitVec 64) : Prop :=
  ∀ i, n ≤ i → i < maxPages → pageNumber virt ≠ heapPage start i

/-- The heap has not shrunk, and all other pages are mapped as before. -/
structure Extends (h h' : Heap σ) : Prop where
  pml4 : h'.pml4 = h.pml4
  start : h'.heapStart = h.heapStart
  size : h.heapSize ≤ h'.heapSize
  translate : ∀ virt, OffHeap h.heapStart (h.heapSize / pageSize) virt →
    h'.vmm.translate h'.pml4 virt = h.vmm.translate h.pml4 virt

/-- A heap whose pages are backed stays one. -/
def KeepsBacked (A : FrameAllocator σ) (h h' : Heap σ) : Prop :=
  (∃ n M, h.Backed A n M) → (∃ n M, h'.Backed A n M) ∧ Extends h h'

/-- Runs of the heap's operations, with any arguments, from a pagemap on; the clients write what
they want to the memory the heap shows. -/
inductive HeapCalls (A : FrameAllocator σ) (higherHalf : Nat) (root : BitVec 64) (v : Vmm σ) :
    Heap σ → Prop where
  | start : setupHeap A higherHalf (Heap.initial v root bytes) = .ok h →
      HeapCalls A higherHalf root v h
  | call : HeapCalls A higherHalf root v h → HeapOp.run A h op = .ok (p, h') →
      HeapCalls A higherHalf root v h'
  | write : HeapCalls A higherHalf root v h →
      HeapCalls A higherHalf root v { h with bytes := bytes }

variable {σ : Type} {A : FrameAllocator σ} {v v' w : Vmm σ} {root : BitVec 64} {M : PageMap}
  {h h' h'' : Heap σ} {op : HeapOp}

theorem OffHeap.mono (ho : OffHeap start n virt) (hle : n ≤ m) : OffHeap start m virt :=
  fun i hi => ho i (hle.trans hi)

theorem heapPage_inj (hs : pageSize ∣ start) (hi : i < maxPages) (hj : j < maxPages)
    (he : heapPage start i = heapPage start j) : i = j := by
  have hn := congrArg BitVec.toNat he
  rw [heapPage, heapPage, pageNumber_toNat, pageNumber_toNat, BitVec.toNat_ofNat,
    BitVec.toNat_ofNat] at hn
  simp only [pageSize, maxPages] at *
  omega

theorem Frame.lt (f : Frame) : f.addr.toNat < 2 ^ 52 := by
  have ha := congrArg BitVec.toNat f.aligned
  rw [pteGetAddr, BitVec.toNat_and] at ha
  rw [← ha]
  exact Nat.lt_of_le_of_lt Nat.and_le_right (by decide)

theorem Frame.pageBase (f : Frame) : pageBase f.addr = f.addr := by
  have hmask : pteAddrMask &&& ~~~0xfff = pteAddrMask := by decide
  rw [AdaOS.pageBase]
  calc f.addr &&& ~~~0xfff = pteGetAddr f.addr &&& ~~~0xfff := by rw [f.aligned]
    _ = pteGetAddr f.addr := by rw [pteGetAddr, BitVec.and_assoc, hmask]
    _ = f.addr := f.aligned

/-- The next heap page gets a frame that no page before it has. -/
theorem Vmm.Backs.step (hb : v.Backs A root start n M) (hs : pageSize ∣ start)
    (ha : v.ppAlloc A = .ok (some f, w))
    (hm : mapPage A w root (BitVec.ofNat 64 (start + n * pageSize)) f.addr heapPte =
      .ok (true, v')) :
    n < maxPages ∧
      v'.Backs A root start (n + 1)
        (Function.update M (heapPage start n) (some (f.addr, heapPte))) := by
  have hw := hb.maps.ppAlloc ha
  obtain ⟨hno, _⟩ | ⟨_, hf, hc⟩ := Vmm.ppAlloc_cases ha
  · cases hno
  cases hf
  have hins := hc.held
  have hgrow := mapPage_held hm
  have hnew : f.addr ∈ A.held v'.frames := hgrow (hins ▸ Finset.mem_insert_self ..)
  have hold : ∀ g ∈ A.held v.frames, g ∈ A.held v'.frames :=
    fun g hg => hgrow (hins ▸ Finset.mem_insert_of_mem hg)
  have hcount : n + 1 ≤ v'.inUse A := by
    have hcard : w.inUse A = v.inUse A + 1 :=
      (congrArg Finset.card hins).trans (Finset.card_insert_of_notMem hc.fresh)
    have hle := mapPage_inUse hm
    have hn := hb.count
    omega
  have hn : n < maxPages := hcount.trans v'.inUse_le
  have hother : ∀ i < n, Function.update M (heapPage start n) (some (f.addr, heapPte))
      (heapPage start i) = M (heapPage start i) := by
    intro i hi
    apply Function.update_of_ne
    intro he
    exact Nat.ne_of_lt hi (heapPage_inj hs (hi.trans hn) hn he)
  have hclash : ∀ i < n, M (heapPage start i) ≠ some (f.addr, heapPte) := by
    intro i hi he
    obtain ⟨g, hg, hgm⟩ := hb.frame i hi
    rw [hgm] at he
    cases he
    exact hc.fresh hg
  have hmap := hw.map f.lt (by decide) hm
  rw [f.pageBase] at hmap
  refine ⟨hn, hmap, hcount, ?_, ?_⟩
  · intro i hi
    rcases Nat.lt_succ_iff_lt_or_eq.1 hi with hi | rfl
    · obtain ⟨g, hg, hgm⟩ := hb.frame i hi
      exact ⟨g, hold g hg, (hother i hi).trans hgm⟩
    · exact ⟨f.addr, hnew, Function.update_self ..⟩
  · intro i hi j hj he
    rcases Nat.lt_succ_iff_lt_or_eq.1 hi with hi | rfl <;>
      rcases Nat.lt_succ_iff_lt_or_eq.1 hj with hj | rfl
    · rw [hother i hi, hother j hj] at he
      exact hb.apart i hi j hj he
    · rw [hother i hi, Function.update_self] at he
      exact (hclash i hi he).elim
    · rw [hother j hj, Function.update_self] at he
      exact (hclash j hj he.symm).elim
    · rfl

theorem Vmm.Backs.mono (hb : v.Backs A root start n M) (hle : m ≤ n) :
    v.Backs A root start m M :=
  ⟨hb.maps, hle.trans hb.count, fun i hi => hb.frame i (Nat.lt_of_lt_of_le hi hle),
    fun i hi j hj => hb.apart i (Nat.lt_of_lt_of_le hi hle) j (Nat.lt_of_lt_of_le hj hle)⟩

theorem pageFrames_cons (i : Nat) (f : BitVec 64) (l : List (BitVec 64)) :
    pageFrames i (f :: l) = [(i, f)] ++ pageFrames (i + 1) l := rfl

theorem lastFrame_append (i : Nat) (l l' : List (Nat × BitVec 64)) :
    lastFrame i (l ++ l') = (lastFrame i l').or (lastFrame i l) := by
  rw [lastFrame, List.reverse_append, List.lookup_append, ← lastFrame, ← lastFrame]

theorem regrow_append (i : Nat) (l l' : List (Nat × BitVec 64))
    (e : Option (BitVec 64 × BitVec 64)) :
    regrow i (l ++ l') e = regrow i l' (regrow i l e) := by
  rw [regrow, lastFrame_append, Option.map_or, Option.or_assoc, ← regrow, ← regrow]

theorem regrow_singleton (hs : pageSize ∣ start) (hi : i < maxPages) (hn : n < maxPages) :
    regrow i [(n, f)] (M (heapPage start i)) =
      Function.update M (heapPage start n) (some (f, heapPte)) (heapPage start i) := by
  rw [regrow, lastFrame, List.reverse_singleton, List.lookup_cons]
  by_cases h : i = n
  · rw [h, beq_self_eq_true, Function.update_self]
    rfl
  · rw [beq_false_of_ne h, Function.update_of_ne fun he => h (heapPage_inj hs hi hn he)]
    rfl

/-- The page loop of `heap_grow_pages` backs pages from `n` on, all of them or as many as there
are frames for. Pages an earlier attempt has left there are mapped anew. -/
theorem growLoop_backs (hb : h.vmm.Backs A h.pml4 h.heapStart n M)
    (hs : pageSize ∣ h.heapStart)
    (h₀ : growLoop A (h.heapStart + n * pageSize) k h = .ok (r, h')) :
    (h'.pml4 = h.pml4 ∧ h'.heapStart = h.heapStart ∧ h'.heapSize = h.heapSize) ∧
      ∃ m M', h'.vmm.Backs A h.pml4 h.heapStart m M' ∧ n ≤ m ∧ (r = true → m = n + k) ∧
        (∀ virt, OffHeap h.heapStart n virt → M' (pageNumber virt) = M (pageNumber virt)) ∧
        ∀ i < maxPages, M' (heapPage h.heapStart i) =
          regrow i (pageFrames n (growFrames A (h.heapStart + n * pageSize) k h))
            (M (heapPage h.heapStart i)) := by
  induction k generalizing n h M with
  | zero =>
    cases h₀
    exact ⟨⟨rfl, rfl, rfl⟩, n, M, hb, Nat.le_refl _, fun _ => rfl, fun _ _ => rfl, fun _ _ => rfl⟩
  | succ k ih =>
    obtain ⟨⟨x, w⟩, ha, h₀⟩ := bind_ok h₀
    rw [growFrames, ha]
    cases x with
    | none =>
      cases h₀
      have hheld : A.held h.vmm.frames = A.held w.frames := by
        rcases Vmm.ppAlloc_cases ha with ⟨_, hr⟩ | ⟨f, hf, _⟩
        · exact hr.held.symm
        · cases hf
      have hcount : h.vmm.inUse A = w.inUse A := congrArg Finset.card hheld
      exact ⟨⟨rfl, rfl, rfl⟩, n, M,
        ⟨hb.maps.ppAlloc ha, hcount ▸ hb.count, hheld ▸ hb.frame, hb.apart⟩,
        Nat.le_refl _, (fun hr => nomatch hr), fun _ _ => rfl, fun _ _ => rfl⟩
    | some f =>
      obtain ⟨⟨y, u⟩, hm, h₀⟩ := bind_ok h₀
      cases y with
      | false => cases h₀
      | true =>
        obtain ⟨hn, hu⟩ := hb.step hs ha hm
        have hnext : h.heapStart + n * pageSize + pageSize =
            h.heapStart + (n + 1) * pageSize := by
          rw [Nat.succ_mul, Nat.add_assoc]
        rw [hnext] at h₀
        have hrest := fun bytes hloop => ih (h := { h with vmm := u, bytes := bytes }) hu hs hloop
        obtain ⟨hsame, m, M', hM', hle, hall, hkeep, hframes⟩ := hrest _ h₀
        dsimp only at hframes ⊢
        refine ⟨hsame, m, M', hM', Nat.le_of_succ_le hle, fun hr => ?_, fun virt ho => ?_,
          fun i hi => ?_⟩
        · rw [hall hr]
          omega
        · rw [hkeep virt (ho.mono (Nat.le_succ n))]
          exact Function.update_of_ne (ho n (Nat.le_refl n) hn) ..
        · rw [hframes i hi, hm]
          dsimp only
          rw [hnext, pageFrames_cons, regrow_append, regrow_singleton hs hi hn]

theorem Extends.refl : Extends h h := ⟨rfl, rfl, Nat.le_refl _, fun _ _ => rfl⟩

theorem Extends.trans (h₁ : Extends h h') (h₂ : Extends h' h'') : Extends h h'' := by
  refine ⟨h₂.pml4.trans h₁.pml4, h₂.start.trans h₁.start, h₁.size.trans h₂.size, ?_⟩
  intro virt ho
  have hoff : OffHeap h'.heapStart (h'.heapSize / pageSize) virt := by
    rw [h₁.start]
    exact ho.mono (Nat.div_le_div_right h₁.size)
  exact (h₂.translate virt hoff).trans (h₁.translate virt ho)

theorem KeepsBacked.refl : KeepsBacked A h h := fun hb => ⟨hb, .refl⟩

theorem KeepsBacked.trans (h₁ : KeepsBacked A h h') (h₂ : KeepsBacked A h' h'') :
    KeepsBacked A h h'' := by
  intro hb
  obtain ⟨hb', he⟩ := h₁ hb
  obtain ⟨hb'', he'⟩ := h₂ hb'
  exact ⟨hb'', he.trans he'⟩

theorem Edits.keepsBacked (he : Edits P h h') : KeepsBacked A h h' := by
  rintro ⟨n, M, hb⟩
  refine ⟨⟨n, M, ?_, ?_, ?_, ?_⟩, he.pml4, he.start, Nat.le_of_eq he.size.symm, ?_⟩
  · rw [he.vmm, he.pml4, he.start]
    exact hb.backs
  · exact he.size.trans hb.size
  · exact he.start ▸ hb.aligned
  · exact he.start ▸ hb.bounded
  · intro virt _
    rw [he.vmm, he.pml4]

theorem Heap.Backed.stop_lt (hb : h.Backed A n M) :
    n ≤ maxPages ∧ h.heapStart + n * pageSize < 2 ^ 64 := by
  have hn := hb.backs.count.trans h.vmm.inUse_le
  have hle := Nat.mul_le_mul_left pageSize hn
  have hroom := hb.bounded
  rw [Nat.mul_comm n]
  exact ⟨hn, by omega⟩

theorem Heap.Backed.extends (hb : h.Backed A n M) (hp : h'.pml4 = h.pml4)
    (hs : h'.heapStart = h.heapStart) (hz : h.heapSize ≤ h'.heapSize)
    (hm : h'.vmm.Maps A h.pml4 M')
    (hkeep : ∀ virt, OffHeap h.heapStart n virt → M' (pageNumber virt) = M (pageNumber virt)) :
    Extends h h' := by
  refine ⟨hp, hs, hz, fun virt ho => ?_⟩
  rw [hb.size, Nat.mul_div_cancel _ (by decide)] at ho
  rw [hp, hm.translate, hb.backs.maps.translate, hkeep virt ho]

/-- A growth that fails leaves pages mapped past the end of the heap, and only there. -/
theorem heapGrowPages_keepsBacked (h₀ : heapGrowPages A h k = .ok (r, h')) :
    KeepsBacked A h h' := by
  rintro ⟨n, M, hb⟩
  obtain ⟨hn, hlt⟩ := hb.stop_lt
  have hbase : u64 (h.heapStart + h.heapSize) = h.heapStart + n * pageSize := by
    rw [hb.size, u64_of_lt hlt]
  rcases heapGrowPages_cases h₀ with
    ⟨_, _, rfl⟩ | ⟨_, rfl, hloop⟩ | ⟨_, rfl, g, w, hloop, hw, rfl⟩
  · exact ⟨⟨n, M, hb⟩, .refl⟩
  · rw [hbase] at hloop
    obtain ⟨⟨hp, hs, hz⟩, m, M', hM', hle, _, hkeep, _⟩ :=
      growLoop_backs hb.backs hb.aligned hloop
    have hM := hM'.mono hle
    rw [← hp, ← hs] at hM
    exact ⟨⟨n, M', hM, hz.trans hb.size, hs ▸ hb.aligned, hs ▸ hb.bounded⟩,
      hb.extends hp hs (Nat.le_of_eq hz.symm) hM'.maps hkeep⟩
  · rw [hbase] at hloop
    obtain ⟨⟨hp, hs, hz⟩, m, M', hM', _, hall, hkeep, _⟩ :=
      growLoop_backs hb.backs hb.aligned hloop
    have he := addRegion_edits hw
    obtain rfl := hall rfl
    have hmax := Nat.mul_le_mul_right pageSize (hM'.count.trans g.vmm.inUse_le)
    have hbig : maxPages * pageSize < 2 ^ 64 := by decide
    rw [Nat.add_mul] at hmax
    have hsize : u64 (w.heapSize + u64 (k * pageSize)) = (n + k) * pageSize := by
      rw [he.size, hz, hb.size, u64_of_lt (show k * pageSize < 2 ^ 64 by omega),
        u64_of_lt (by omega), Nat.add_mul]
    have hstart := he.start.trans hs
    have hpml4 := he.pml4.trans hp
    refine ⟨⟨n + k, M', ?_, hsize, hstart ▸ hb.aligned, hstart ▸ hb.bounded⟩, ?_⟩
    · dsimp only
      rw [hpml4, hstart, he.vmm]
      exact hM'
    · refine hb.extends hpml4 hstart ?_ (he.vmm ▸ hM'.maps) hkeep
      dsimp only
      rw [hsize, hb.size, Nat.add_mul]
      exact Nat.le_add_right ..

theorem kmallocLoop_keepsBacked (h₀ : kmallocLoop A total fuel h = .ok (p, h')) :
    KeepsBacked A h h' := by
  induction fuel generalizing h with
  | zero => cases h₀
  | succ fuel ih =>
    obtain ⟨r, _, h₀⟩ := bind_ok h₀
    cases r with
    | some x =>
      cases h₀
      exact (takeBlock_edits ..).keepsBacked
    | none =>
      obtain ⟨⟨y, g⟩, hgrow, h₀⟩ := bind_ok h₀
      have hg := heapGrowPages_keepsBacked hgrow
      cases y with
      | true => exact hg.trans (ih h₀)
      | false =>
        obtain ⟨⟨z, w⟩, hgrow', h₀⟩ := bind_ok h₀
        have hw := hg.trans (heapGrowPages_keepsBacked hgrow')
        cases z with
        | true => exact hw.trans (ih h₀)
        | false =>
          cases h₀
          exact hw

theorem kmalloc_keepsBacked (h₀ : kmalloc A h size = .ok (p, h')) : KeepsBacked A h h' := by
  rw [kmalloc] at h₀
  split at h₀
  · cases h₀
    exact .refl
  · exact kmallocLoop_keepsBacked h₀

theorem kfree_keepsBacked (h₀ : kfree h ptr = .ok h') : KeepsBacked A h h' :=
  (kfree_edits h₀).keepsBacked

theorem kcalloc_keepsBacked (h₀ : kcalloc A h num size = .ok (p, h')) : KeepsBacked A h h' := by
  rw [kcalloc_eq] at h₀
  split at h₀
  · obtain ⟨⟨q, g⟩, hk, h₀⟩ := bind_ok h₀
    have hg := kmalloc_keepsBacked hk
    dsimp only at h₀
    split at h₀
    · cases h₀
      exact hg
    · cases h₀
      exact hg.trans (edits_anywhere ..).keepsBacked
  · cases h₀
    exact .refl

theorem krealloc_keepsBacked (h₀ : krealloc A h ptr newSize = .ok (p, h')) :
    KeepsBacked A h h' := by
  rw [krealloc] at h₀
  split at h₀
  · exact kmalloc_keepsBacked h₀
  · split at h₀
    · obtain ⟨g, hf, h₀⟩ := bind_ok h₀
      cases h₀
      exact kfree_keepsBacked hf
    · dsimp only at h₀
      generalize (if h.sizeAt (sub64 ptr headerSize) ≥ headerSize then
        sub64 (h.sizeAt (sub64 ptr headerSize)) headerSize else 0) = oldPayload at h₀
      split at h₀
      · cases h₀
        exact .refl
      · obtain ⟨⟨q, g⟩, hk, h₀⟩ := bind_ok h₀
        have hg := kmalloc_keepsBacked hk
        dsimp only at h₀
        split at h₀
        · cases h₀
          exact hg
        · obtain ⟨w, hf, h₀⟩ := bind_ok h₀
          cases h₀
          exact (hg.trans (edits_anywhere ..).keepsBacked).trans (kfree_keepsBacked hf)

/-- Each operation of the heap, on any arguments, keeps its pages backed. -/
theorem HeapOp.keepsBacked (h₀ : op.run A h = .ok (p, h')) : KeepsBacked A h h' := by
  cases op with
  | kmalloc size => exact kmalloc_keepsBacked h₀
  | kcalloc num size => exact kcalloc_keepsBacked h₀
  | krealloc ptr newSize => exact krealloc_keepsBacked h₀
  | kfree ptr =>
    obtain ⟨g, hg, h₀⟩ := bind_ok h₀
    cases h₀
    exact kfree_keepsBacked hg

theorem setupHeap_backed (hp : HhdmPlaced higherHalf) (hm : v.Maps A root M)
    (h₀ : setupHeap A higherHalf (Heap.initial v root bytes) = .ok h) :
    (∃ n M, h.Backed A n M) ∧ h.pml4 = root ∧
      h.heapStart = higherHalf + 0x10000000000 ∧
      ∀ virt, OffHeap h.heapStart 0 virt →
        h.vmm.translate root virt = v.translate root virt := by
  have hroom := hp.room
  have hpages : pageSize * maxPages = 2 ^ 32 := by decide
  have hstart : u64 (higherHalf + 0x10000000000) = higherHalf + 0x10000000000 :=
    u64_of_lt (by omega)
  have hnone : v.Backs A root (higherHalf + 0x10000000000) 0 M :=
    ⟨hm, Nat.zero_le _, fun i hi => absurd hi (Nat.not_lt_zero i),
      fun i hi => absurd hi (Nat.not_lt_zero i)⟩
  obtain ⟨⟨r, g⟩, hgrow, h₀⟩ := bind_ok h₀
  rw [hstart] at hgrow
  obtain ⟨hg, he⟩ := heapGrowPages_keepsBacked hgrow
    ⟨0, M, hnone, (Nat.zero_mul _).symm, Nat.dvd_add hp.aligned (by decide), hroom⟩
  cases r with
  | false => cases h₀
  | true =>
    cases h₀
    obtain ⟨hb, he'⟩ := (edits_anywhere _ _).keepsBacked (A := A) hg
    have hall := he.trans he'
    refine ⟨hb, hall.pml4, hall.start, fun virt ho => ?_⟩
    have hkeep := hall.translate virt
    rw [hall.pml4] at hkeep
    have hoff := ho.mono (Nat.zero_le (0 / pageSize))
    rw [hall.start] at hoff
    exact hkeep hoff

/-- In every reachable state the heap is backed, and pages off the heap are mapped as they were
before the heap was set up. -/
theorem HeapCalls.backed (hr : HeapCalls A higherHalf root v h) (hp : HhdmPlaced higherHalf)
    (hm : v.Maps A root M) :
    (∃ n M, h.Backed A n M) ∧ h.pml4 = root ∧ h.heapStart = higherHalf + 0x10000000000 ∧
      ∀ virt, OffHeap h.heapStart 0 virt →
        h.vmm.translate root virt = v.translate root virt := by
  induction hr with
  | start h₀ => exact setupHeap_backed hp hm h₀
  | call _ h₀ ih =>
    obtain ⟨hb, hpml4, hstart, hkeep⟩ := ih
    obtain ⟨hb', he⟩ := HeapOp.keepsBacked h₀ hb
    refine ⟨hb', he.pml4.trans hpml4, he.start.trans hstart, fun virt ho => ?_⟩
    rw [he.start] at ho
    have hsame := he.translate virt (ho.mono (Nat.zero_le _))
    rw [he.pml4, hpml4] at hsame
    exact hsame.trans (hkeep virt ho)
  | write _ ih =>
    obtain ⟨hb, hpml4, hstart, hkeep⟩ := ih
    exact ⟨((edits_anywhere _ _).keepsBacked hb).1, hpml4, hstart, hkeep⟩

theorem Heap.Backed.page (hb : h.Backed A n M) (hlo : h.heapStart ≤ a)
    (hhi : a < h.heapStart + h.heapSize) : a / pageSize - h.heapStart / pageSize < n ∧
      pageNumber (BitVec.ofNat 64 a) =
        heapPage h.heapStart (a / pageSize - h.heapStart / pageSize) := by
  have hs := hb.aligned
  have hz := hb.size
  have hlt := hb.stop_lt.2
  constructor
  · simp only [pageSize] at *
    omega
  · apply BitVec.eq_of_toNat_eq
    rw [heapPage, pageNumber_toNat, pageNumber_toNat, BitVec.toNat_ofNat, BitVec.toNat_ofNat]
    simp only [pageSize] at *
    omega

/-- The heap's memory is backed in every reachable state: each page is mapped present, writable
and not executable, no two of them share a frame, and no operation changes the translation of an
address that is not on a page from the end of the heap on. -/
theorem heapCalls_backed (hp : HhdmPlaced k.higherHalf)
    (hv : setupVmm A k ⟨mem, s, []⟩ = .ok (root, v)) (hr : HeapCalls A k.higherHalf root v h) :
    (∃ frame : Nat → BitVec 64,
      (∀ a, h.heapStart ≤ a → a < h.heapStart + h.heapSize →
        h.vmm.translate root (BitVec.ofNat 64 a) = some (frame (a / pageSize), heapPte) ∧
        h.vmm.access root (BitVec.ofNat 64 a) = some ⟨frame (a / pageSize), true, false⟩) ∧
      ∀ a b, h.heapStart ≤ a → a < h.heapStart + h.heapSize → h.heapStart ≤ b →
        b < h.heapStart + h.heapSize → a / pageSize ≠ b / pageSize →
        frame (a / pageSize) ≠ frame (b / pageSize)) ∧
    (∀ virt, OffHeap h.heapStart 0 virt →
      h.vmm.translate root virt = v.translate root virt) ∧
    ∀ op p h', HeapOp.run A h op = .ok (p, h') →
      ∀ virt, OffHeap h.heapStart (h.heapSize / pageSize) virt →
        h'.vmm.translate root virt = h.vmm.translate root virt := by
  obtain ⟨M, hm⟩ := setupVmm_maps hv
  obtain ⟨⟨n, M', hb⟩, hpml4, _, hkeep⟩ := hr.backed hp hm
  have hmaps := hb.backs.maps
  rw [hpml4] at hmaps
  have hframe : ∀ i < n, ∃ f, M' (heapPage h.heapStart i) = some (f, heapPte) := by
    intro i hi
    obtain ⟨f, _, hf⟩ := hb.backs.frame i hi
    exact ⟨f, hf⟩
  choose! frame hframe using hframe
  refine ⟨⟨fun p => frame (p - h.heapStart / pageSize), ?_, ?_⟩, hkeep, ?_⟩
  · intro a hlo hhi
    obtain ⟨hi, hpage⟩ := hb.page hlo hhi
    rw [hmaps.access, hmaps.translate, hpage, hframe _ hi]
    exact ⟨rfl, rfl⟩
  · intro a b hlo hhi hlo' hhi' hne he
    have hi := (hb.page hlo hhi).1
    have hj := (hb.page hlo' hhi').1
    have hij := hb.backs.apart _ hi _ hj <| by
      rw [hframe _ hi, hframe _ hj]
      exact congrArg (fun f => some (f, heapPte)) he
    have hbase := Nat.div_le_div_right (c := pageSize) hlo
    have hbase' := Nat.div_le_div_right (c := pageSize) hlo'
    omega
  · intro op p h' h₀ virt ho
    have he := ((HeapOp.keepsBacked h₀) ⟨n, M', hb⟩).2
    have hsame := he.translate virt ho
    rwa [he.pml4, hpml4] at hsame

theorem heapCalls_backed_small : ∃ (x : OwnedPmm oneChunk) (root : BitVec 64)
    (v : Vmm (OwnedPmm oneChunk)) (h : Heap (OwnedPmm oneChunk)),
    setupVmm (pmmFrames oneChunk_sound) smallLayout ⟨fun _ _ => 0, x, []⟩ = .ok (root, v) ∧
    HeapCalls (pmmFrames oneChunk_sound) smallLayout.higherHalf root v h ∧
    (∃ frame : Nat → BitVec 64,
      (∀ a, h.heapStart ≤ a → a < h.heapStart + h.heapSize →
        h.vmm.translate root (BitVec.ofNat 64 a) = some (frame (a / pageSize), heapPte) ∧
        h.vmm.access root (BitVec.ofNat 64 a) = some ⟨frame (a / pageSize), true, false⟩) ∧
      ∀ a b, h.heapStart ≤ a → a < h.heapStart + h.heapSize → h.heapStart ≤ b →
        b < h.heapStart + h.heapSize → a / pageSize ≠ b / pageSize →
        frame (a / pageSize) ≠ frame (b / pageSize)) ∧
    (∀ virt, OffHeap h.heapStart 0 virt →
      h.vmm.translate root virt = v.translate root virt) ∧
    ∀ op p h', HeapOp.run (pmmFrames oneChunk_sound) h op = .ok (p, h') →
      ∀ virt, OffHeap h.heapStart (h.heapSize / pageSize) virt →
        h'.vmm.translate root virt = h.vmm.translate root virt := by
  obtain ⟨x, _, hl⟩ := oneChunk_frames
  have hframes : smallLayout.mapFrames = 24 ∧ smallLayout.fbPages = 2 := ⟨rfl, rfl⟩
  have hl' : (pmmFrames oneChunk_sound).Lasts (0 + 256 * 4 + smallLayout.fbPages * 3 +
      smallLayout.mapFrames + 512 + 1) x := by
    apply hl.mono
    rw [hframes.1, hframes.2]
    omega
  obtain ⟨root, v, hv, hlast, _⟩ := setupVmm_lasts (v := ⟨fun _ _ => 0, x, []⟩) hl'
  obtain ⟨h, hh, _⟩ := setupHeap_lasts hhdmPlaced_default hlast root fun _ => 0
  exact ⟨x, root, v, h, hv, .start hh, heapCalls_backed hhdmPlaced_default hv (.start hh)⟩

end AdaOS
