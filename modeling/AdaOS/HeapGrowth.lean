import AdaOS.FreeList
import AdaOS.MapPage
import AdaOS.Tiling

namespace AdaOS
set_option autoImplicit true
open ByteMem Blocks

def Vmm.inUse (A : FrameAllocator σ) (v : Vmm σ) : Nat := (A.held v.frames).card

/-- The block of a live pointer: its header is in front of it. -/
def blockOf (m : Mem) (ptr : Nat) : Block := ⟨ptr - headerSize, word m (ptr - headerSize)⟩

/-- The blocks of the live pointers, which are paired with the sizes asked for. -/
def Heap.used (h : Heap σ) (live : List (Nat × Nat)) : List Block :=
  live.map fun e => blockOf h.bytes e.1

/-- Pages were mapped from `virt` on. -/
structure PagesMapped (A : FrameAllocator σ) (virt : Nat) (h h' : Heap σ) : Prop where
  head : h'.freeListHead = h.freeListHead
  start : h'.heapStart = h.heapStart
  size : h'.heapSize = h.heapSize
  inUse : h.vmm.inUse A ≤ h'.vmm.inUse A
  bytes : ∀ a < virt, h'.bytes a = h.bytes a

/-- The invariant of the heap: live blocks and the blocks of the free list tile it. -/
structure HeapInv (A : FrameAllocator σ) (h : Heap σ) (live : List (Nat × Nat))
    (l : List Block) : Prop where
  chained : h.Chained l
  tiling : Tiling heapAlignment h.heapStart (h.heapStart + h.heapSize) (h.used live) l
  asked : ∀ e ∈ live, e.2 + headerSize ≤ (blockOf h.bytes e.1).size
  pages : pageSize ∣ h.heapStart ∧ pageSize ∣ h.heapSize
  positive : 0 < h.heapStart
  bounded : h.heapStart + pageSize * maxPages < 2 ^ 64
  backed : h.heapSize ≤ pageSize * h.vmm.inUse A

/-- The heap is where it was, no smaller, and these blocks in it are unchanged. -/
structure Keeps (used : List Block) (h h' : Heap σ) : Prop where
  start : h'.heapStart = h.heapStart
  size : h.heapSize ≤ h'.heapSize
  bytes : ∀ a, Covers used a → h'.bytes a = h.bytes a

variable {σ : Type} {A : FrameAllocator σ} {v v' : Vmm σ} {h h' h'' : Heap σ}
  {live : List (Nat × Nat)} {used l : List Block} {b : Block}

theorem Vmm.inUse_le (v : Vmm σ) : v.inUse A ≤ maxPages := A.held_le _

theorem ppAlloc_inUse (h : v.ppAlloc A = .ok (r, v')) :
    (r = none ∧ v'.inUse A = v.inUse A) ∨ ∃ f, r = some f ∧ v'.inUse A = v.inUse A + 1 := by
  rcases Vmm.ppAlloc_cases h with ⟨rfl, hr⟩ | ⟨f, rfl, hc⟩
  · exact .inl ⟨rfl, congrArg Finset.card hr.held⟩
  · exact .inr ⟨f, rfl,
      (congrArg Finset.card hc.held).trans (Finset.card_insert_of_notMem hc.fresh)⟩

theorem mapPage_inUse (h : mapPage A v pml4 virt phys flags = .ok (r, v')) :
    v.inUse A ≤ v'.inUse A := Finset.card_le_card (mapPage_held h)

theorem PagesMapped.trans (h₁ : PagesMapped A virt h h') (h₂ : PagesMapped A virt' h' h'')
    (hv : virt ≤ virt') : PagesMapped A virt h h'' :=
  ⟨h₂.head.trans h₁.head, h₂.start.trans h₁.start, h₂.size.trans h₁.size,
    h₁.inUse.trans h₂.inUse,
    fun a ha => (h₂.bytes a (Nat.lt_of_lt_of_le ha hv)).trans (h₁.bytes a ha)⟩

/-- Each page mapped for the heap takes a frame. -/
theorem growLoop_spec (h₀ : growLoop A virt n h = .ok (r, h')) (hd : pageSize ∣ virt)
    (hv : virt ≤ lo + pageSize * h.vmm.inUse A) (hlo : lo + pageSize * maxPages < 2 ^ 64) :
    PagesMapped A virt h h' ∧ (r = true → h.vmm.inUse A + n ≤ h'.vmm.inUse A) := by
  induction n generalizing virt h with
  | zero =>
    cases h₀
    exact ⟨⟨rfl, rfl, rfl, Nat.le_refl _, fun _ _ => rfl⟩, fun _ => Nat.le_refl _⟩
  | succ n ih =>
    obtain ⟨⟨x, w⟩, ha, h₀⟩ := bind_ok h₀
    rcases ppAlloc_inUse ha with ⟨rfl, hw⟩ | ⟨f, rfl, hw⟩
    · cases h₀
      exact ⟨⟨rfl, rfl, rfl, Nat.le_of_eq hw.symm, fun _ _ => rfl⟩, fun hr => nomatch hr⟩
    · obtain ⟨⟨y, u⟩, hm, h₀⟩ := bind_ok h₀
      cases y with
      | false => cases h₀
      | true =>
        have hu := mapPage_inUse hm
        have hmax := w.inUse_le (A := A)
        rw [hw] at hu hmax
        have hpos : 0 < pageSize := by decide
        have hstep := Nat.mul_le_mul_left pageSize hu
        have hroom := Nat.mul_le_mul_left pageSize hmax
        rw [Nat.mul_succ] at hstep hroom
        have hvirt : u64 virt / pageSize * pageSize = virt := by
          rw [u64_of_lt (by omega), Nat.div_mul_cancel hd]
        rw [hvirt] at h₀
        obtain ⟨hmap, hall⟩ := ih h₀ (Nat.dvd_add hd (Nat.dvd_refl _)) (by dsimp only; omega)
        have hfill : PagesMapped A virt h
            { h with vmm := u, bytes := fill h.bytes virt pageSize } :=
          ⟨rfl, rfl, rfl, by dsimp only; omega, fun a ha => fill_of_outside (.inl ha)⟩
        refine ⟨hfill.trans hmap (Nat.le_add_right ..), fun hr => ?_⟩
        have hrest := hall hr
        dsimp only at hrest
        omega

/-- Every way in which `heap_grow_pages` returns. -/
theorem heapGrowPages_cases (h₀ : heapGrowPages A h n = .ok (r, h')) :
    (n = 0 ∧ r = false ∧ h' = h) ∨
      (n ≠ 0 ∧ r = false ∧ growLoop A (u64 (h.heapStart + h.heapSize)) n h = .ok (false, h')) ∨
      n ≠ 0 ∧ r = true ∧ ∃ g w,
        growLoop A (u64 (h.heapStart + h.heapSize)) n h = .ok (true, g) ∧
        addRegion g (u64 (h.heapStart + h.heapSize)) (u64 (n * pageSize)) = .ok w ∧
        h' = { w with heapSize := u64 (w.heapSize + u64 (n * pageSize)) } := by
  rw [heapGrowPages] at h₀
  split at h₀
  · next hn =>
    cases h₀
    exact .inl ⟨hn, rfl, rfl⟩
  · next hn =>
    obtain ⟨⟨x, g⟩, hloop, h₀⟩ := bind_ok h₀
    cases x with
    | false =>
      cases h₀
      exact .inr (.inl ⟨hn, rfl, hloop⟩)
    | true =>
      obtain ⟨w, hw, h₀⟩ := bind_ok h₀
      cases h₀
      exact .inr (.inr ⟨hn, rfl, g, w, hloop, hw, rfl⟩)

theorem Keeps.refl : Keeps used h h := ⟨rfl, Nat.le_refl _, fun _ _ => rfl⟩

theorem Keeps.trans (h₁ : Keeps used h h') (h₂ : Keeps used h' h'') : Keeps used h h'' :=
  ⟨h₂.start.trans h₁.start, h₁.size.trans h₂.size,
    fun a ha => (h₂.bytes a ha).trans (h₁.bytes a ha)⟩

theorem Keeps.of_edits (he : Edits (Covers l) h h') (hap : ∀ b ∈ used, ∀ c ∈ l, b.Apart c) :
    Keeps used h h' := by
  refine ⟨he.start, Nat.le_of_eq he.size.symm, ?_⟩
  intro a hcov
  exact he.bytes a (hcov.not_covers hap)

theorem Keeps.used_eq (hk : Keeps (h.used live) h h') (hr : ∀ b ∈ h.used live, 16 ≤ b.size) :
    h'.used live = h.used live := by
  apply List.map_congr_left
  intro e he
  have hb : blockOf h.bytes e.1 ∈ h.used live := List.mem_map_of_mem he
  have hword := (words_congr (hr _ hb) fun a ha => hk.bytes a ⟨_, hb, ha⟩).1
  exact congrArg (Block.mk _) hword

section HeapInv
variable (hi : HeapInv A h live l)
include hi

theorem HeapInv.stop_lt : h.heapStart + h.heapSize < 2 ^ 64 := by
  have hb := hi.bounded
  have hs := hi.backed
  have hm := Nat.mul_le_mul_left pageSize (h.vmm.inUse_le (A := A))
  omega

theorem HeapInv.room (hb : b ∈ h.used live ++ l) : 16 ≤ b.size := hi.tiling.room hb

theorem HeapInv.length_lt : l.length < h.walkFuel := by
  have hlen := hi.tiling.length_le
  have hg : heapAlignment = 16 := rfl
  have hm : minAllocSize = 16 := rfl
  rw [Heap.walkFuel, hm]
  rw [hg] at hlen
  omega

/-- The invariant carries over when the live blocks stay what they are. -/
theorem HeapInv.carry (hk : Keeps (h.used live) h h') (hc : h'.Chained l')
    (ht : Tiling heapAlignment h.heapStart (h.heapStart + h'.heapSize) (h.used live) l')
    (hp : pageSize ∣ h'.heapSize) (hs : h'.heapSize ≤ pageSize * h'.vmm.inUse A) :
    HeapInv A h' live l' := by
  have hu := hk.used_eq fun b hb => hi.room (List.mem_append_left _ hb)
  refine ⟨hc, ?_, fun e he => ?_, ⟨hk.start ▸ hi.pages.1, hp⟩, hk.start ▸ hi.positive,
    hk.start ▸ hi.bounded, hs⟩
  · rw [hu, hk.start]
    exact ht
  · have hsame := List.map_inj_left.1 hu e he
    rw [hsame]
    exact hi.asked e he

/-- The invariant after edits of the heap's own memory. -/
theorem HeapInv.edited (he : Edits P h h') (hc : h'.Chained l')
    (ht : Tiling heapAlignment h.heapStart (h.heapStart + h.heapSize) (h'.used live') l')
    (ha : ∀ e ∈ live', e.2 + headerSize ≤ (blockOf h'.bytes e.1).size) :
    HeapInv A h' live' l' := by
  refine ⟨hc, ?_, ha, ?_, ?_, ?_, ?_⟩
  · rw [he.start, he.size]
    exact ht
  · rw [he.start, he.size]
    exact hi.pages
  · rw [he.start]
    exact hi.positive
  · rw [he.start]
    exact hi.bounded
  · rw [he.size, he.vmm]
    exact hi.backed

theorem HeapInv.mapped (hm : PagesMapped A (h.heapStart + h.heapSize) h h') :
    HeapInv A h' live l ∧ Keeps (h.used live) h h' := by
  have hk : Keeps (h.used live) h h' := by
    refine ⟨hm.start, Nat.le_of_eq hm.size.symm, ?_⟩
    intro a hcov
    obtain ⟨b, hb, hba⟩ := hcov
    have hin := hi.tiling.within b hb
    exact hm.bytes a (Nat.lt_of_lt_of_le hba.2 hin.2)
  refine ⟨hi.carry hk (hi.chained.congr hm.head ?_) ?_ ?_ ?_, hk⟩
  · intro a hcov
    obtain ⟨b, hb, hba⟩ := hcov
    have hin := hi.tiling.free_within hb
    exact hm.bytes a (Nat.lt_of_lt_of_le hba.2 hin.2)
  · rw [hm.size]
    exact hi.tiling
  · rw [hm.size]
    exact hi.pages.2
  · rw [hm.size]
    exact hi.backed.trans (Nat.mul_le_mul_left _ hm.inUse)

theorem HeapInv.addRegion_chained (hb : b.addr = h.heapStart + h.heapSize) (hroom : 16 ≤ b.size)
    (hlt : b.stop < 2 ^ 64) : ∃ g, addRegion h b.addr b.size = .ok g ∧ g.Chained (place b l) ∧
      Edits (Covers (b :: l)) h g := by
  have hpos := hi.positive
  have hbstop : b.stop = b.addr + b.size := rfl
  have hap : ∀ c ∈ l, b.Apart c := fun c hc => .inr (hb ▸ (hi.tiling.free_within hc).2)
  generalize hg : (h.setSize b.addr b.size).setNext b.addr 0 = g
  have hedit : Edits b.Has h g := by
    rw [← hg]
    exact (Edits.setSize hroom).trans (.setNext hroom)
  have hsize : g.sizeAt b.addr = b.size := by
    rw [← hg]
    exact Heap.sizeAt_setNext.trans (Heap.sizeAt_setSize (by omega))
  have hhead : g.freeListHead = h.freeListHead := by
    rw [← hg]
    rfl
  have hmono : Edits (Covers (b :: l)) h g := hedit.mono fun a ha => covers_cons.2 (.inl ha)
  have hc : g.Chained l := hi.chained.keep hedit hhead hap
  rw [addRegion]
  simp only [hg]
  by_cases hh : g.freeListHead = 0
  · obtain rfl := hc.eq_nil hh
    have hnext : g.nextAt b.addr = 0 := by
      rw [← hg]
      exact Heap.nextAt_setNext (by decide)
    refine ⟨{ g with freeListHead := b.addr }, if_pos hh, ⟨⟨rfl, hsize, hnext⟩, ?_, ?_, ?_⟩,
      ⟨hmono.vmm, hmono.pml4, hmono.start, hmono.size, hmono.bytes⟩⟩
    · exact roomy_cons.2 ⟨hroom, hc.roomy, List.forall_mem_nil _⟩
    · exact List.forall_mem_singleton.2 (by omega)
    · exact List.forall_mem_singleton.2 hlt
  · have hfuel : l.length < g.walkFuel := by
      rw [Heap.walkFuel, hedit.size]
      exact hi.length_lt
    obtain ⟨prev, hfind, hlink⟩ := linkBlock_spec hc hi.tiling.spaced hap hroom (by omega) hlt hfuel
    obtain ⟨hplace, hlink⟩ := hlink g hc hsize
    refine ⟨linkBlock g prev b.addr, ?_, hplace, hmono.trans hlink⟩
    rw [if_neg hh, hfind]
    rfl

theorem HeapInv.of_addRegion (hn : 0 < n) (hd : pageSize ∣ n)
    (hs : h.heapSize + n ≤ pageSize * h.vmm.inUse A) :
    ∃ g, addRegion h (h.heapStart + h.heapSize) n = .ok g ∧ g.heapSize = h.heapSize ∧
      (∃ l', HeapInv A { g with heapSize := h.heapSize + n } live l') ∧
      Keeps (h.used live) h { g with heapSize := h.heapSize + n } := by
  have hgrain : heapAlignment ∣ pageSize := by decide
  have hbase : pageSize ∣ h.heapStart + h.heapSize := Nat.dvd_add hi.pages.1 hi.pages.2
  have ht := hi.tiling.grow (Nat.le_add_right ..) hn (hgrain.trans hbase) (hgrain.trans hd)
  have hroom : 16 ≤ n := (Nat.le_of_dvd hn hd).trans' (by decide)
  have hlt : h.heapStart + h.heapSize + n < 2 ^ 64 := by
    have hb := hi.bounded
    have hm := Nat.mul_le_mul_left pageSize (h.vmm.inUse_le (A := A))
    omega
  obtain ⟨g, hg, hc, hedit⟩ :=
    hi.addRegion_chained (b := ⟨h.heapStart + h.heapSize, n⟩) rfl hroom hlt
  have hkg : Keeps (h.used live) h g := by
    apply Keeps.of_edits hedit
    intro b hb
    exact List.forall_mem_cons.2
      ⟨.inl (hi.tiling.within b hb).2, fun c hcl => hi.tiling.apart_free hb hcl⟩
  have hk : Keeps (h.used live) h { g with heapSize := h.heapSize + n } :=
    ⟨hkg.start, Nat.le_add_right .., hkg.bytes⟩
  refine ⟨g, hg, hedit.size, ⟨_, hi.carry hk ⟨hc.links, hc.roomy, hc.nonzero, hc.below⟩ ?_ ?_ ?_⟩,
    hk⟩
  · rw [← Nat.add_assoc]
    exact ht
  · exact Nat.dvd_add hi.pages.2 hd
  · rw [hedit.vmm]
    exact hs

/-- Once its pages are mapped, a region becomes part of the heap. -/
theorem HeapInv.grown (hloop : growLoop A (h.heapStart + h.heapSize) n h = .ok (true, h'))
    (hn : 0 < n) : ∃ g, addRegion h' (h.heapStart + h.heapSize) (u64 (n * pageSize)) = .ok g ∧
      u64 (g.heapSize + u64 (n * pageSize)) = h.heapSize + n * pageSize ∧
      (∃ l', HeapInv A { g with heapSize := h.heapSize + n * pageSize } live l') ∧
      Keeps (h.used live) h { g with heapSize := h.heapSize + n * pageSize } := by
  have hbase : pageSize ∣ h.heapStart + h.heapSize := Nat.dvd_add hi.pages.1 hi.pages.2
  obtain ⟨hmap, hall⟩ := growLoop_spec hloop hbase (Nat.add_le_add_left hi.backed _) hi.bounded
  obtain ⟨hig, hkg⟩ := hi.mapped hmap
  have hmul := Nat.mul_le_mul_left pageSize (hall rfl)
  have hmax := Nat.mul_le_mul_left pageSize (h'.vmm.inUse_le (A := A))
  have hbound := hig.bounded
  have hbacked := hi.backed
  rw [Nat.mul_add, Nat.mul_comm pageSize n] at hmul
  have hregion : u64 (n * pageSize) = n * pageSize := u64_of_lt (by omega)
  obtain ⟨g, hg, hsize, hinv, hk⟩ := hig.of_addRegion (n := n * pageSize)
    (Nat.mul_pos hn (by decide)) (Nat.dvd_mul_left ..) (by rw [hmap.size]; omega)
  rw [hkg.used_eq fun b hb => hi.room (List.mem_append_left _ hb)] at hk
  rw [hmap.size] at hinv hk hg hsize
  rw [hmap.start] at hg
  rw [hregion]
  refine ⟨g, hg, ?_, hinv, hkg.trans hk⟩
  rw [hsize, u64_of_lt (by omega)]

theorem HeapInv.grow (h₀ : heapGrowPages A h n = .ok (r, h')) (hn : 0 < n) :
    (∃ l', HeapInv A h' live l') ∧ Keeps (h.used live) h h' ∧
      (r = true → h'.heapSize = h.heapSize + n * pageSize) := by
  rcases heapGrowPages_cases h₀ with
    ⟨hz, _⟩ | ⟨_, rfl, hloop⟩ | ⟨_, rfl, g, w, hloop, hw, rfl⟩
  · exact absurd hz (Nat.ne_of_gt hn)
  · rw [u64_of_lt hi.stop_lt] at hloop
    have hbase : pageSize ∣ h.heapStart + h.heapSize := Nat.dvd_add hi.pages.1 hi.pages.2
    obtain ⟨hmap, _⟩ := growLoop_spec hloop hbase (Nat.add_le_add_left hi.backed _) hi.bounded
    obtain ⟨hig, hkg⟩ := hi.mapped hmap
    exact ⟨⟨l, hig⟩, hkg, fun hr => nomatch hr⟩
  · rw [u64_of_lt hi.stop_lt] at hloop hw
    obtain ⟨w', hw', hsize, hinv, hk⟩ := hi.grown hloop hn
    rw [hw] at hw'
    cases hw'
    rw [hsize]
    exact ⟨hinv, hk, fun _ => rfl⟩

end HeapInv

end AdaOS
