import AdaOS.HeapBacking
import AdaOS.HeapSafety

namespace AdaOS
set_option autoImplicit true
open ByteMem Blocks

/-- `pp_alloc` returns `NULL` exactly when no page is left. -/
structure Supply (A : FrameAllocator σ) (left : σ → Nat) : Prop where
  refused : ∀ s, left s = 0 → ∃ s', A.alloc s = .ok (none, s') ∧ left s' = 0
  served : ∀ s n, left s = n + 1 → ∃ f s', A.alloc s = .ok (some f, s') ∧ left s' = n

/-- `map_page` succeeds on each of the `n` pages from `virt` on and takes no page itself. -/
def MapsFreely (A : FrameAllocator σ) (root : BitVec 64) : Nat → Nat → Vmm σ → Prop
  | _, 0, _ => True
  | virt, n + 1, v => ∀ f w, v.ppAlloc A = .ok (some f, w) →
    ∃ v', mapPage A w root (BitVec.ofNat 64 virt) f.addr heapPte = .ok (true, v') ∧
      v'.frames = w.frames ∧ MapsFreely A root (virt + pageSize) n v'

/-- No block has room for `total` bytes, also not the one at the end of the heap with `n` more
pages. -/
def Unservable (l : List Block) (stop total n : Nat) : Prop :=
  (∀ b ∈ l, b.size < total) ∧ endSize stop l + n * pageSize < total

def PoolState.left {pool : List Frame} (s : PoolState pool) : Nat :=
  ((pool.map Frame.addr).toFinset \ s.1).card

variable {σ : Type} {A : FrameAllocator σ} {left : σ → Nat} {v w : Vmm σ} {h h' : Heap σ}
  {live : List (Nat × Nat)} {l : List Block} {higherHalf : Nat}

theorem Supply.ppAlloc_refused (hs : Supply A left) (hl : left v.frames = 0) :
    ∃ w, v.ppAlloc A = .ok (none, w) ∧ left w.frames = 0 := by
  obtain ⟨s, ha, hl'⟩ := hs.refused _ hl
  exact ⟨_, bind_of_ok ha _, hl'⟩

theorem Supply.ppAlloc_served (hs : Supply A left) (hl : left v.frames = n + 1) :
    ∃ f w, v.ppAlloc A = .ok (some f, w) ∧ left w.frames = n := by
  obtain ⟨f, s, ha, hl'⟩ := hs.served _ _ hl
  exact ⟨f, _, bind_of_ok ha _, hl'⟩

theorem Supply.growLoop (hs : Supply A left) (hl : left h.vmm.frames = n + m)
    (hf : MapsFreely A h.pml4 virt (n + m) h.vmm) :
    ∃ h', growLoop A virt n h = .ok (true, h') ∧ left h'.vmm.frames = m ∧
      h'.pml4 = h.pml4 ∧ MapsFreely A h.pml4 (virt + n * pageSize) m h'.vmm := by
  induction n generalizing virt h with
  | zero =>
    rw [Nat.zero_add] at hl hf
    rw [Nat.zero_mul, Nat.add_zero]
    exact ⟨h, rfl, hl, rfl, hf⟩
  | succ n ih =>
    rw [Nat.succ_add] at hl hf
    obtain ⟨f, w, ha, hl'⟩ := hs.ppAlloc_served hl
    obtain ⟨v', hm, hsame, hf'⟩ := hf f w ha
    have hrest : ∀ bytes, ∃ h', AdaOS.growLoop A (virt + pageSize) n
        { h with vmm := v', bytes := bytes } = .ok (true, h') ∧ left h'.vmm.frames = m ∧
        h'.pml4 = h.pml4 ∧ MapsFreely A h.pml4 (virt + pageSize + n * pageSize) m h'.vmm :=
      fun bytes => ih (h := { h with vmm := v', bytes := bytes }) (hsame ▸ hl') hf'
    obtain ⟨h', hloop, hdone⟩ := hrest (fill h.bytes (u64 virt / pageSize * pageSize) pageSize)
    rw [Nat.add_assoc, Nat.add_comm pageSize, ← Nat.succ_mul] at hdone
    refine ⟨h', ?_, hdone⟩
    rw [AdaOS.growLoop]
    exact (bind_of_ok ha _).trans ((bind_of_ok hm _).trans hloop)

theorem Supply.growLoop_starved (hs : Supply A left) (hl : left h.vmm.frames = n)
    (hf : MapsFreely A h.pml4 virt n h.vmm) (hn : n < k) :
    ∃ h', AdaOS.growLoop A virt k h = .ok (false, h') ∧ left h'.vmm.frames = 0 := by
  induction k generalizing virt h n with
  | zero => exact absurd hn (Nat.not_lt_zero n)
  | succ k ih =>
    rw [AdaOS.growLoop]
    cases n with
    | zero =>
      obtain ⟨w, ha, hl'⟩ := hs.ppAlloc_refused hl
      exact ⟨{ h with vmm := w }, bind_of_ok ha _, hl'⟩
    | succ n =>
      obtain ⟨f, w, ha, hl'⟩ := hs.ppAlloc_served hl
      obtain ⟨v', hm, hsame, hf'⟩ := hf f w ha
      have hrest : ∀ bytes, ∃ h', AdaOS.growLoop A (virt + pageSize) k
          { h with vmm := v', bytes := bytes } = .ok (false, h') ∧ left h'.vmm.frames = 0 :=
        fun bytes => ih (h := { h with vmm := v', bytes := bytes }) (hsame ▸ hl') hf'
          (Nat.lt_of_succ_lt_succ hn)
      obtain ⟨h', hloop, hdone⟩ := hrest (fill h.bytes (u64 virt / pageSize * pageSize) pageSize)
      exact ⟨h', (bind_of_ok ha _).trans ((bind_of_ok hm _).trans hloop), hdone⟩

theorem endSize_lt (h : ∀ b ∈ l, b.size < total) (hpos : 0 < total) (stop : Nat) :
    endSize stop l < total := by
  induction l with
  | nil => exact hpos
  | cons b l ih =>
    obtain ⟨hb, hl⟩ := List.forall_mem_cons.1 h
    rw [endSize]
    split
    · exact hb
    · exact ih hl

/-- Where the page loop succeeds the heap grows at its end. -/
theorem HeapInv.grow_of_loop (hi : HeapInv A h live l) (hn : 0 < n)
    (hloop : AdaOS.growLoop A (h.heapStart + h.heapSize) n h = .ok (true, h')) :
    ∃ g, heapGrowPages A h n = .ok (true, g) ∧
      HeapInv A g live (place ⟨h.heapStart + h.heapSize, n * pageSize⟩ l) ∧
      g.heapStart + g.heapSize = h.heapStart + h.heapSize + n * pageSize ∧
      g.vmm = h'.vmm ∧ g.pml4 = h'.pml4 := by
  obtain ⟨w, hw, hsize, ⟨l', hinv⟩, hk⟩ := hi.grown hloop hn
  have hedit := addRegion_edits hw
  have hgrain : heapAlignment ∣ pageSize := by decide
  have hend : heapAlignment ∣ h.heapStart + h.heapSize :=
    hgrain.trans (Nat.dvd_add hi.pages.1 hi.pages.2)
  have hgrown := hi.tiling.grow (Nat.le_add_right ..) (Nat.mul_pos hn (by decide)) hend
    (hgrain.trans (Nat.dvd_mul_left pageSize n))
  have htiling := hinv.tiling
  rw [hk.used_eq fun b hb => hi.room (List.mem_append_left _ hb), hk.start] at htiling
  dsimp only at htiling
  rw [← Nat.add_assoc] at htiling
  obtain rfl := htiling.unique hgrown fun _ => Iff.rfl
  have hstart : w.heapStart = h.heapStart := hk.start
  refine ⟨{ w with heapSize := h.heapSize + n * pageSize }, ?_, hinv, ?_, hedit.vmm, hedit.pml4⟩
  · rw [heapGrowPages, if_neg (Nat.ne_of_gt hn), u64_of_lt hi.stop_lt, ← hsize]
    exact (bind_of_ok hloop _).trans (bind_of_ok hw _)
  · dsimp only
    rw [hstart, Nat.add_assoc]

section HeapInv
variable (hi : HeapInv A h live l) (hs : Supply A left)
include hi hs

theorem HeapInv.left_le (hl : left h.vmm.frames = n)
    (hf : MapsFreely A h.pml4 (h.heapStart + h.heapSize) n h.vmm) : n ≤ maxPages := by
  obtain ⟨g, hloop, _⟩ := hs.growLoop (m := 0) hl hf
  have hbase : pageSize ∣ h.heapStart + h.heapSize := Nat.dvd_add hi.pages.1 hi.pages.2
  have hall := (growLoop_spec hloop hbase (Nat.add_le_add_left hi.backed _) hi.bounded).2 rfl
  exact (Nat.le_add_left ..).trans (hall.trans g.vmm.inUse_le)

theorem HeapInv.grow_supplied (hn : 0 < n) (hl : left h.vmm.frames = n + m)
    (hf : MapsFreely A h.pml4 (h.heapStart + h.heapSize) (n + m) h.vmm) :
    ∃ h', heapGrowPages A h n = .ok (true, h') ∧
      HeapInv A h' live (place ⟨h.heapStart + h.heapSize, n * pageSize⟩ l) ∧
      h'.heapStart + h'.heapSize = h.heapStart + h.heapSize + n * pageSize ∧
      left h'.vmm.frames = m ∧
      MapsFreely A h'.pml4 (h'.heapStart + h'.heapSize) m h'.vmm := by
  obtain ⟨g, hloop, hleft, hpml4, hfree⟩ := hs.growLoop hl hf
  obtain ⟨h', hgrow, hinv, hend, hvmm, hpml4'⟩ := hi.grow_of_loop hn hloop
  refine ⟨h', hgrow, hinv, hend, ?_, ?_⟩
  · rw [hvmm]
    exact hleft
  · rw [hvmm, hpml4', hpml4, hend]
    exact hfree

theorem HeapInv.grow_starved (hl : left h.vmm.frames = n)
    (hf : MapsFreely A h.pml4 (h.heapStart + h.heapSize) n h.vmm) (hn : n < k) :
    ∃ h' l', heapGrowPages A h k = .ok (false, h') ∧ HeapInv A h' live l' ∧
      left h'.vmm.frames = 0 := by
  obtain ⟨g, hloop, hleft⟩ := hs.growLoop_starved hl hf hn
  have hpos : 0 < k := Nat.zero_lt_of_lt hn
  have hgrow : heapGrowPages A h k = .ok (false, g) := by
    rw [heapGrowPages, if_neg (Nat.ne_of_gt hpos), u64_of_lt hi.stop_lt]
    exact bind_of_ok hloop _
  obtain ⟨⟨l', hg⟩, _⟩ := hi.grow hgrow hpos
  exact ⟨g, l', hgrow, hg, hleft⟩

end HeapInv

/-- A step of 16 pages changes nothing but the block at the end of the heap. -/
theorem unservable_place (hl : Spaced l) (hle : ∀ c ∈ l, c.stop ≤ stop)
    (hno : ∀ b ∈ l, b.size < total) :
    Unservable (place ⟨stop, 16 * pageSize⟩ l) (stop + 16 * pageSize) total n ↔
      Unservable l stop total (n + 16) := by
  obtain ⟨hend, hfits⟩ := hl.place_end (n := 16 * pageSize) hle (by decide)
  have hall : (∀ b ∈ place ⟨stop, 16 * pageSize⟩ l, b.size < total) ↔
      endSize stop l + 16 * pageSize < total := by
    have hfit := hfits total
    constructor
    · intro h
      by_contra hno'
      obtain ⟨b, hb, hle⟩ := hfit.2 (.inr (Nat.le_of_not_lt hno'))
      exact Nat.not_le_of_lt (h b hb) hle
    · intro h b hb
      by_contra hno'
      rcases hfit.1 ⟨b, hb, Nat.le_of_not_lt hno'⟩ with ⟨c, hc, hle⟩ | hle
      · exact Nat.not_le_of_lt (hno c hc) hle
      · exact Nat.not_le_of_lt h hle
  rw [Unservable, Unservable, hall, hend, Nat.add_mul]
  constructor
  · rintro ⟨_, h⟩
    exact ⟨hno, by omega⟩
  · rintro ⟨_, h⟩
    exact ⟨by omega, by omega⟩

/-- `kmalloc` gets as far as steps of 16 pages lead; the pages that are left after them, which
the last attempt takes, are of no use to it. -/
theorem HeapInv.kmallocLoop_supplied (hi : HeapInv A h live l) (hs : Supply A left)
    (hl : left h.vmm.frames = n)
    (hf : MapsFreely A h.pml4 (h.heapStart + h.heapSize) n h.vmm) (hpos : 0 < total)
    (hfuel : n / 16 < fuel) : ∃ p h', kmallocLoop A total fuel h = .ok (p, h') ∧
      (p = 0 ↔ Unservable l (h.heapStart + h.heapSize) total (n / 16 * 16)) := by
  induction fuel generalizing h l n with
  | zero => exact absurd hfuel (Nat.not_lt_zero _)
  | succ fuel ih =>
    rw [kmallocLoop]
    rcases findFit_cases total 0 hi.chained.links hi.chained.nonzero
      hi.length_lt with ⟨hnone, hno⟩ | ⟨front, c, back, rfl, hle, _, hsome⟩
    · rw [hnone]
      by_cases hn : n < 16
      · obtain ⟨g, l', hgrow, hg, hleft⟩ := hi.grow_starved hs hl hf hn
        obtain ⟨w, _, hgrow', _⟩ := hg.grow_starved (k := 1) hs hleft trivial (by decide)
        refine ⟨0, w, (bind_of_ok hgrow _).trans (bind_of_ok hgrow' _), ?_⟩
        rw [Nat.div_eq_of_lt hn]
        refine ⟨fun _ => ⟨hno, ?_⟩, fun _ => rfl⟩
        rw [Nat.zero_mul]
        exact endSize_lt hno hpos _
      · obtain ⟨m, rfl⟩ := Nat.exists_eq_add_of_le (Nat.le_of_not_lt hn)
        obtain ⟨g, hgrow, hg, hend, hleft, hfree⟩ := hi.grow_supplied hs (by decide) hl hf
        have hdiv : (16 + m) / 16 = m / 16 + 1 := by omega
        rw [hdiv] at hfuel ⊢
        obtain ⟨p, h', hloop, hiff⟩ := ih hg hleft hfree (Nat.lt_of_succ_lt_succ hfuel)
        refine ⟨p, h', (bind_of_ok hgrow _).trans hloop, ?_⟩
        rw [hiff, hend, unservable_place hi.tiling.spaced
          (fun c hc => (hi.tiling.free_within hc).2) hno, Nat.succ_mul]
    · have hc : c ∈ front ++ c :: back := by simp
      have hroom := hi.room (List.mem_append_right _ hc)
      have hbelow := hi.chained.below c hc
      have hstop : c.stop = c.addr + c.size := rfl
      have hheader : headerSize = 16 := rfl
      have hne : u64 (c.addr + headerSize) ≠ 0 := by
        have hnonzero := hi.chained.nonzero c hc
        by_cases hexact : c.addr + headerSize < 2 ^ 64
        · rw [u64_of_lt hexact]
          omega
        · omega
      rw [hsome]
      refine ⟨_, _, rfl, fun h => (hne h).elim, fun h => ?_⟩
      exact absurd hle (Nat.not_le_of_lt (h.1 c hc))

/-- When `kmalloc` returns `NULL` the request could not be met with all pages that are left,
except where it is met neither by a free block nor by the steps of 16 pages that `kmalloc` makes;
a request for no bytes is never met. -/
theorem kmalloc_exhausted_iff (hb : HhdmPlaced higherHalf) (hr : HeapRun A higherHalf h live)
    (hs : Supply A left) (hl : left h.vmm.frames = n)
    (hf : MapsFreely A h.pml4 (h.heapStart + h.heapSize) n h.vmm) (hle : size ≤ 2 ^ 64 - 32) :
    ∃ l p h', h.FreeList l ∧ kmalloc A h size = .ok (p, h') ∧
      ((p = 0 → Unservable l (h.heapStart + h.heapSize) (totalSize size) n) ↔
        Unservable l (h.heapStart + h.heapSize) (totalSize size) n ∨ (size ≠ 0 ∧
          ¬Unservable l (h.heapStart + h.heapSize) (totalSize size) (n / 16 * 16))) := by
  obtain ⟨⟨l, hi⟩, _⟩ := hr.inv hb
  refine ⟨l, ?_⟩
  rw [kmalloc]
  by_cases hz : size = 0
  · rw [if_pos hz]
    exact ⟨0, h, hi.freeList, rfl, fun h => .inl (h rfl), fun h _ => h.elim id fun hno =>
      (hno.1 hz).elim⟩
  · rw [if_neg hz]
    have hpos : 0 < totalSize size :=
      Nat.lt_of_lt_of_le (Nat.pos_of_ne_zero hz) ((Nat.le_add_right ..).trans
        (totalSize_spec (Nat.pos_of_ne_zero hz) hle).2)
    have hmax := hi.left_le hs hl hf
    have hfuel : n / 16 < maxPages + 1 := by omega
    obtain ⟨p, h', hloop, hiff⟩ := hi.kmallocLoop_supplied hs hl hf hpos hfuel
    refine ⟨p, h', hi.freeList, hloop, ?_⟩
    rw [hiff]
    constructor
    · intro hall
      by_cases hu : Unservable l (h.heapStart + h.heapSize) (totalSize size) (n / 16 * 16)
      · exact .inl (hall hu)
      · exact .inr ⟨hz, hu⟩
    · rintro (hall | ⟨_, hno⟩)
      · exact fun _ => hall
      · exact fun hu => (hno hu).elim

/-- Where the page tables are there, `map_page` takes no page. -/
theorem mapsFreely_of_tables (hv : v.Tree root) (hh : v.TablesHeld A root)
    (ht : ∀ i < n, ∃ pt,
      v.tableAt root (tablePath (BitVec.ofNat 64 (virt + i * pageSize))) = some pt) :
    MapsFreely A root virt n v := by
  induction n generalizing virt v with
  | zero => trivial
  | succ n ih =>
    intro f w ha
    obtain ⟨hm, hheld⟩ := ppAlloc_spares hh ha
    have hat : ∀ {q}, q.length ≤ 3 → w.tableAt root q = v.tableAt root q :=
      fun hq => Vmm.tableAt_spared hm hq
    have hpath : ∀ x, (tablePath x).length ≤ 3 := fun _ => Nat.le_refl 3
    have hw := Vmm.tree_spared hv hm
    have hhw := Vmm.tablesHeld_spared hh hm hheld
    obtain ⟨pt, hpt⟩ := ht 0 (Nat.succ_pos n)
    rw [Nat.zero_mul, Nat.add_zero] at hpt
    obtain ⟨v', hmap, hset⟩ := mapPage_present (A := A) ((hat (hpath _)).trans hpt) f.addr
      heapPte
    refine ⟨v', hmap, hset.frames, ih (hset.tree hw) (hset.tablesHeld hw hhw) ?_⟩
    intro i hi
    obtain ⟨pt', hpt'⟩ := ht (i + 1) (Nat.succ_lt_succ hi)
    rw [Nat.succ_mul, Nat.add_comm (i * pageSize), ← Nat.add_assoc] at hpt'
    exact ⟨pt', ((hset.tableAt hw (hpath _)).trans (hat (hpath _))).trans hpt'⟩

theorem Supply.descend (hs : Supply A left) (flags : BitVec 64) (hz : ∀ i, v.mem t i = 0)
    (hl : left v.frames = p.length + n) : ∃ pt v',
    AdaOS.descend A flags t p v = .ok (some pt, v') ∧ left v'.frames = n := by
  induction p generalizing t v with
  | nil => exact ⟨t, v, rfl, hl.trans (Nat.zero_add n)⟩
  | cons i p ih =>
    rw [List.length_cons, Nat.succ_add] at hl
    obtain ⟨f, w, ha, hl'⟩ := hs.ppAlloc_served hl
    have habsent : ¬hasFlag (v.mem t i) ptePresent = true := by
      rw [hz]
      decide
    have hget : ∃ u, getOrAllocateNextLevel A v t i flags = .ok (some f.addr, u) ∧
        (∀ j, u.mem f.addr j = 0) ∧ u.frames = w.frames := by
      rw [getOrAllocateNextLevel, if_neg habsent]
      refine ⟨_, bind_of_ok ha _, fun j => ?_, rfl⟩
      simp only [Vmm.clear, Function.update_self]
    obtain ⟨u, hget, hzero, hframes⟩ := hget
    obtain ⟨pt, v', hd, hleft⟩ := ih hzero (hframes ▸ hl')
    exact ⟨pt, v', (bind_of_ok hget _).trans hd, hleft⟩

theorem framePool_supply {pool : List Frame} (hpool : pool.length ≤ maxPages) :
    Supply (framePool pool hpool) PoolState.left := by
  have hmem : ∀ {s : PoolState pool} {f}, f ∈ pool → f.addr ∉ s.1 →
      f.addr ∈ (pool.map Frame.addr).toFinset \ s.1 := fun hf hs =>
    Finset.mem_sdiff.2 ⟨List.mem_toFinset.2 (List.mem_map_of_mem hf), hs⟩
  constructor
  · intro s hl
    have hnone : pool.find? (fun f => f.addr ∉ s.1) = none := by
      apply List.find?_eq_none.2
      intro f hf
      have hempty := Finset.card_eq_zero.1 hl
      simp only [decide_not, Bool.not_eq_true', decide_eq_false_iff_not, not_not]
      by_contra hs
      exact Finset.notMem_empty _ (hempty ▸ hmem hf hs)
    refine ⟨s, ?_, hl⟩
    simp only [framePool]
    split
    · next f hf =>
      rw [hnone] at hf
      cases hf
    · rfl
  · intro s n hl
    have hpos : 0 < s.left := by
      rw [hl]
      exact Nat.succ_pos n
    obtain ⟨a, ha⟩ := Finset.card_pos.1 hpos
    obtain ⟨hpa, hsa⟩ := Finset.mem_sdiff.1 ha
    obtain ⟨g, hg, rfl⟩ := List.mem_map.1 (List.mem_toFinset.1 hpa)
    simp only [framePool]
    split
    · next f hf =>
      have hfree := List.find?_some hf
      have hin := hmem (List.mem_of_find?_eq_some hf) (of_decide_eq_true hfree)
      refine ⟨f, _, rfl, ?_⟩
      rw [PoolState.left, Finset.sdiff_insert, Finset.card_erase_of_mem hin]
      exact congrArg Nat.pred hl
    · next hnone =>
      have hno := List.find?_eq_none.1 hnone g hg
      exact (hno (decide_eq_true hsa)).elim

theorem poolAddr_nonzero (hi : i < maxPages) : BitVec.ofNat 64 ((i + 1) * pageSize) ≠ 0 := by
  intro h
  have hn := congrArg BitVec.toNat h
  rw [BitVec.toNat_ofNat] at hn
  simp only [maxPages, pageSize] at *
  change _ = 0 at hn
  omega

theorem poolAddr_aligned (hi : i < maxPages) :
    pteGetAddr (BitVec.ofNat 64 ((i + 1) * pageSize)) = BitVec.ofNat 64 ((i + 1) * pageSize) := by
  have hdvd : pageSize ∣ (i + 1) * pageSize := Nat.dvd_mul_left ..
  rw [← pageBase_of_dvd hdvd]
  apply pageBase_addr
  rw [BitVec.toNat_ofNat]
  simp only [maxPages, pageSize] at *
  omega

/-- The frame of page `i + 1` of memory. -/
def poolFrame (i : Nat) (hi : i < maxPages) : Frame where
  addr := BitVec.ofNat 64 ((i + 1) * pageSize)
  nonzero := poolAddr_nonzero hi
  aligned := poolAddr_aligned hi

/-- Memory of `n` pages behind the first. -/
def pagePool (n : Nat) (hn : n ≤ maxPages) : List Frame :=
  (List.finRange n).map fun i => poolFrame i.val (Nat.lt_of_lt_of_le i.isLt hn)

theorem pagePool_length (hn : n ≤ maxPages) : (pagePool n hn).length ≤ maxPages := by
  rw [pagePool, List.length_map, List.length_finRange]
  exact hn

theorem pagePool_card (hn : n ≤ maxPages) :
    ((pagePool n hn).map Frame.addr).toFinset.card = n := by
  rw [List.toFinset_card_of_nodup]
  · rw [List.length_map, pagePool, List.length_map, List.length_finRange]
  · rw [pagePool, List.map_map]
    apply (List.nodup_finRange n).map
    intro i j h
    have he : BitVec.ofNat 64 ((i.val + 1) * pageSize) =
      BitVec.ofNat 64 ((j.val + 1) * pageSize) := h
    have hval := congrArg BitVec.toNat he
    have hmax : maxPages = 1048576 := rfl
    have hi := i.isLt
    have hj := j.isLt
    rw [BitVec.toNat_ofNat, BitVec.toNat_ofNat] at hval
    simp only [pageSize] at hval
    apply Fin.ext
    omega

/-- The first pages of a heap in an empty pagemap: three more pages become their tables. -/
theorem Supply.growLoop_blank (hs : Supply A left) (hv : h.vmm.Tree h.pml4)
    (hh : h.vmm.TablesHeld A h.pml4) (hz : ∀ i, h.vmm.mem h.pml4 i = 0)
    (hl : left h.vmm.frames = n + m + 3 + 1)
    (hpath : ∀ i < n + 1 + m,
      tablePath (BitVec.ofNat 64 (virt + i * pageSize)) = tablePath (BitVec.ofNat 64 virt)) :
    ∃ h', AdaOS.growLoop A virt (n + 1) h = .ok (true, h') ∧ left h'.vmm.frames = m ∧
      h'.pml4 = h.pml4 ∧ MapsFreely A h.pml4 (virt + (n + 1) * pageSize) m h'.vmm := by
  obtain ⟨f, w, ha, hl₁⟩ := hs.ppAlloc_served hl
  obtain ⟨hm, hheld⟩ := ppAlloc_spares hh ha
  have hw := Vmm.tree_spared hv hm
  have hhw := Vmm.tablesHeld_spared hh hm hheld
  have hzw : ∀ i, w.mem h.pml4 i = 0 := by
    intro i
    rw [hm h.pml4 .root]
    exact hz i
  obtain ⟨pt, u, hd, hl₂⟩ := hs.descend (p := tablePath (BitVec.ofNat 64 virt))
    (tableFlags heapPte) hzw (hl₁.trans (Nat.add_comm (n + m) 3))
  obtain ⟨v, hmap, hframes⟩ : ∃ v, mapPage A w h.pml4 (BitVec.ofNat 64 virt) f.addr heapPte =
      .ok (true, v) ∧ v.frames = u.frames := by
    rw [mapPage_eq]
    exact ⟨_, bind_of_ok hd _, rfl⟩
  obtain ⟨hr, _⟩ | ⟨_, x, pt', hg, hset⟩ := mapPage_cases hw hhw hmap
  · cases hr
  obtain ⟨hx, hhx⟩ := hg.inv hw hhw
  have htable : v.tableAt h.pml4 (tablePath (BitVec.ofNat 64 virt)) = some pt' :=
    (hset.tableAt hx (Nat.le_of_eq hset.deep)).trans hset.table
  have hfree : MapsFreely A h.pml4 (virt + pageSize) (n + m) v := by
    apply mapsFreely_of_tables (hset.tree hx) (hset.tablesHeld hx hhx)
    intro i hi
    have hnext : virt + pageSize + i * pageSize = virt + (i + 1) * pageSize := by
      rw [Nat.succ_mul, Nat.add_assoc, Nat.add_comm pageSize]
    rw [hnext, hpath (i + 1) (by omega)]
    exact ⟨pt', htable⟩
  have hrest : ∀ bytes, ∃ h', AdaOS.growLoop A (virt + pageSize) n
      { h with vmm := v, bytes := bytes } = .ok (true, h') ∧ left h'.vmm.frames = m ∧
      h'.pml4 = h.pml4 ∧ MapsFreely A h.pml4 (virt + pageSize + n * pageSize) m h'.vmm :=
    fun bytes => hs.growLoop (h := { h with vmm := v, bytes := bytes })
      ((congrArg left hframes).trans hl₂) hfree
  obtain ⟨h', hloop, hdone⟩ := hrest (fill h.bytes (u64 virt / pageSize * pageSize) pageSize)
  rw [Nat.add_assoc, Nat.add_comm pageSize, ← Nat.succ_mul] at hdone
  refine ⟨h', ?_, hdone⟩
  rw [AdaOS.growLoop]
  exact (bind_of_ok ha _).trans ((bind_of_ok hmap _).trans hloop)

/-- The memory that the first heap and its tables leave one page of. -/
def tightPool : List Frame := pagePool 261 (by decide)

theorem tightPool_length : tightPool.length ≤ maxPages := pagePool_length _

theorem tightPool_card : (tightPool.map Frame.addr).toFinset.card = 261 := pagePool_card _

theorem tablePath_heap (hi : i < 512) :
    tablePath (BitVec.ofNat 64 (0xffff810000000000 + i * pageSize)) =
      tablePath (BitVec.ofNat 64 0xffff810000000000) := by
  apply tablePath_eq
  rw [BitVec.toNat_ofNat, BitVec.toNat_ofNat, pageSize]
  omega

/-- A heap of one free block of 256 pages, with one page left for it to grow. -/
theorem tightHeap : ∃ h : Heap (PoolState tightPool),
    HeapRun (framePool tightPool tightPool_length) 0xffff800000000000 h [] ∧
    HeapInv (framePool tightPool tightPool_length) h [] [⟨0xffff810000000000, 0x100000⟩] ∧
    h.heapStart = 0xffff810000000000 ∧ h.heapSize = 0x100000 ∧ h.vmm.frames.left = 1 ∧
    MapsFreely (framePool tightPool tightPool_length) h.pml4 (h.heapStart + h.heapSize) 1
      h.vmm := by
  have hs := framePool_supply tightPool_length
  have hroot : (0x1000 : BitVec 64) ∈ (tightPool.map Frame.addr).toFinset :=
    List.mem_toFinset.2 (List.mem_map.2 ⟨poolFrame 0 (by decide),
      List.mem_map.2 ⟨(0 : Fin 261), List.mem_finRange _, rfl⟩, rfl⟩)
  generalize hstate : (⟨{0x1000}, Finset.singleton_subset_iff.2 hroot⟩ : PoolState tightPool) = s
  have hheld : (0x1000 : BitVec 64) ∈ (framePool tightPool tightPool_length).held s := by
    rw [← hstate]
    exact Finset.mem_singleton_self _
  have hleft : PoolState.left s = 260 := by
    rw [← hstate, PoolState.left, Finset.sdiff_singleton_eq_erase, Finset.card_erase_of_mem hroot,
      tightPool_card]
  obtain ⟨htree, htables⟩ := Vmm.blank_tree (A := framePool tightPool tightPool_length) hheld
  have hinit := HeapInv.initial (A := framePool tightPool tightPool_length)
    (⟨fun _ _ => 0, s, []⟩ : Vmm (PoolState tightPool)) 0x1000 (fun _ => 0) hhdmPlaced_default
  obtain ⟨g, hloop, hone, hpml4, hfree⟩ := hs.growLoop_blank (n := 255) (m := 1)
    (h := { Heap.initial (⟨fun _ _ => 0, s, []⟩ : Vmm (PoolState tightPool)) 0x1000
      (fun _ => 0) with heapStart := u64 (0xffff800000000000 + 0x10000000000), heapSize := 0 })
    htree htables (fun _ => rfl) hleft fun i hi => tablePath_heap (by omega)
  obtain ⟨w, hgrow, _, hend, hvmm, hpml4'⟩ := hinit.grow_of_loop (n := 256) (by decide) hloop
  have hsetup : ∃ h, setupHeap (framePool tightPool tightPool_length) 0xffff800000000000
      (Heap.initial (⟨fun _ _ => 0, s, []⟩ : Vmm (PoolState tightPool)) 0x1000 (fun _ => 0)) =
        .ok h ∧ h.vmm = w.vmm ∧ h.pml4 = w.pml4 ∧
        h.heapStart + h.heapSize = w.heapStart + w.heapSize :=
    ⟨_, bind_of_ok hgrow _, rfl, rfl, rfl⟩
  obtain ⟨h, hh, hhv, hhp, hhe⟩ := hsetup
  have hr : HeapRun (framePool tightPool tightPool_length) 0xffff800000000000 h [] := .start hh
  obtain ⟨⟨l, hi⟩, hstart, hpos⟩ := hr.inv hhdmPlaced_default
  have hwhole := hi.tiling.eq_whole (Nat.lt_add_of_pos_right hpos)
  rw [Nat.add_sub_cancel_left] at hwhole
  have hbase : u64 (0xffff800000000000 + 0x10000000000) = 0xffff810000000000 := by decide
  have hstart' : h.heapStart = 0xffff810000000000 := hstart
  dsimp only at hend hone hfree hvmm
  rw [hbase] at hend
  have hsize : h.heapSize = 0x100000 := by
    simp only [pageSize] at hend
    omega
  rw [hwhole, hstart', hsize] at hi
  refine ⟨h, hr, hi, hstart', hsize, ?_, ?_⟩
  · rw [hhv, hvmm]
    exact hone
  · rw [hhv, hvmm, hhp, hpml4', hpml4, hstart', hsize]
    exact hfree

theorem kmalloc_exhausted_tight : ∃ (h h' : Heap (PoolState tightPool)) (l : List Block)
    (p : Nat), HeapRun (framePool tightPool tightPool_length) 0xffff800000000000 h [] ∧
    h.FreeList l ∧ kmalloc (framePool tightPool tightPool_length) h 64 = .ok (p, h') ∧
    ((p = 0 → Unservable l (h.heapStart + h.heapSize) (totalSize 64) 1) ↔
      Unservable l (h.heapStart + h.heapSize) (totalSize 64) 1 ∨ (64 ≠ 0 ∧
        ¬Unservable l (h.heapStart + h.heapSize) (totalSize 64) (1 / 16 * 16))) := by
  obtain ⟨h, hr, _, _, _, hone, hfree⟩ := tightHeap
  obtain ⟨l, p, h', hl, hk, hiff⟩ := kmalloc_exhausted_iff hhdmPlaced_default hr
    (framePool_supply tightPool_length) hone hfree (show 64 ≤ 2 ^ 64 - 32 by decide)
  exact ⟨h, h', l, p, hr, hl, hk, hiff⟩

/-- `kmalloc` returns `NULL` for a request that the one page left would have made room for. -/
theorem kmalloc_starved : ∃ (h h' : Heap (PoolState tightPool)) (l : List Block),
    Supply (framePool tightPool tightPool_length) PoolState.left ∧
    HeapRun (framePool tightPool tightPool_length) 0xffff800000000000 h [] ∧
    PoolState.left h.vmm.frames = 1 ∧
    MapsFreely (framePool tightPool tightPool_length) h.pml4 (h.heapStart + h.heapSize) 1 h.vmm ∧
    h.FreeList l ∧ kmalloc (framePool tightPool tightPool_length) h 0x100000 = .ok (0, h') ∧
    ¬Unservable l (h.heapStart + h.heapSize) (totalSize 0x100000) 1 := by
  obtain ⟨h, hr, hi, hstart, hsize, hone, hfree⟩ := tightHeap
  have hs := framePool_supply tightPool_length
  have htotal : totalSize 0x100000 = 0x100010 := by decide
  obtain ⟨p, h', hloop, hiff⟩ := hi.kmallocLoop_supplied hs hone hfree
    (show 0 < 0x100010 by decide) (show 1 / 16 < maxPages + 1 by decide)
  have hnull : p = 0 := by
    rw [hiff, hstart, hsize]
    exact ⟨List.forall_mem_singleton.2 (by decide), by decide⟩
  refine ⟨h, h', _, hs, hr, hone, hfree, hi.freeList, ?_, ?_⟩
  · rw [kmalloc, if_neg (by decide), htotal, hloop, hnull]
  · rw [hstart, hsize, htotal]
    rintro ⟨_, hend⟩
    exact absurd hend (by decide)

end AdaOS
