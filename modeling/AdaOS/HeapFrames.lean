import AdaOS.DirectMap

namespace AdaOS
set_option autoImplicit true

section Frames
variable {σ : Type} (A : FrameAllocator σ)

/-- The frames that `heap_grow_pages` takes for the pages at the end of the heap. -/
def regionFrames (h : Heap σ) (pages : Nat) : List (Nat × BitVec 64) :=
  pageFrames (h.heapSize / pageSize) (growFrames A (u64 (h.heapStart + h.heapSize)) pages h)

/-- The frames that `kmalloc` takes when it makes the heap larger. -/
def kmallocLoopFrames (total : Nat) : Nat → Heap σ → List (Nat × BitVec 64)
  | 0, _ => []
  | fuel + 1, h =>
    match findFit h total h.walkFuel 0 h.freeListHead with
    | .ok none =>
      regionFrames A h 16 ++
        match heapGrowPages A h 16 with
        | .ok (true, h) => kmallocLoopFrames total fuel h
        | .ok (false, h) =>
          regionFrames A h 1 ++
            match heapGrowPages A h 1 with
            | .ok (true, h) => kmallocLoopFrames total fuel h
            | _ => []
        | .error _ => []
    | _ => []

def kmallocFrames (h : Heap σ) (size : Nat) : List (Nat × BitVec 64) :=
  if size = 0 then [] else kmallocLoopFrames A (totalSize size) (maxPages + 1) h

def setupFrames (higherHalf : Nat) (h : Heap σ) : List (Nat × BitVec 64) :=
  regionFrames A { h with heapStart := u64 (higherHalf + 0x10000000000), heapSize := 0 } 256

/-- From one state to the next the pages of the heap get these frames. -/
def Regrows (l : List (Nat × BitVec 64)) (h h' : Heap σ) : Prop :=
  (∃ n M, h.Backed A n M) → ∀ i < maxPages,
    h'.vmm.translate h'.pml4 (BitVec.ofNat 64 (h'.heapStart + i * pageSize)) =
      regrow i l (h.vmm.translate h.pml4 (BitVec.ofNat 64 (h.heapStart + i * pageSize)))

end Frames

/-- The aliases were mapped anew by the list, and the pages of the heap got the frames. -/
structure Remapped (k : KernelLayout) (l frames : List (Nat × BitVec 64)) (M M' : PageMap) :
    Prop where
  aliases : Overlay k l M M'
  heap : ∀ i < maxPages, M' (heapPage (k.higherHalf + 0x10000000000) i) =
    regrow i frames (M (heapPage (k.higherHalf + 0x10000000000) i))

variable {σ : Type} {A : FrameAllocator σ} {h h' h'' : Heap σ} {k : KernelLayout}
  {M M' M'' : PageMap}
  {l l' frames frames' : List (Nat × BitVec 64)}

theorem Regrows.refl : Regrows A [] h h := fun _ _ _ => rfl

theorem Regrows.trans (h₁ : Regrows A l h h') (hk : KeepsBacked A h h')
    (h₂ : Regrows A l' h' h'') : Regrows A (l ++ l') h h'' := by
  intro hb i hi
  rw [regrow_append, ← h₁ hb i hi]
  exact h₂ (hk hb).1 i hi

theorem Edits.regrows (he : Edits P h h') : Regrows A [] h h' := by
  intro _ i _
  rw [he.vmm, he.pml4, he.start]
  rfl

theorem heapGrowPages_regrows (h₀ : heapGrowPages A h pages = .ok (r, h')) :
    Regrows A (regionFrames A h pages) h h' := by
  rintro ⟨n, M, hb⟩ i hi
  obtain ⟨_, hlt⟩ := hb.stop_lt
  have hbase : u64 (h.heapStart + h.heapSize) = h.heapStart + n * pageSize := by
    rw [hb.size, u64_of_lt hlt]
  have hfirst : h.heapSize / pageSize = n := by
    rw [hb.size, Nat.mul_div_cancel _ (by decide)]
  rw [regionFrames, hfirst, hbase, hb.backs.maps.translate]
  rcases heapGrowPages_cases h₀ with
    ⟨rfl, _, rfl⟩ | ⟨_, rfl, hloop⟩ | ⟨_, rfl, g, w, hloop, hw, rfl⟩
  · rw [hb.backs.maps.translate]
    rfl
  · rw [hbase] at hloop
    obtain ⟨⟨hp, hs, _⟩, m, M', hM', _, _, _, hframes⟩ := growLoop_backs hb.backs hb.aligned hloop
    rw [hp, hs, hM'.maps.translate]
    exact hframes i hi
  · rw [hbase] at hloop
    obtain ⟨⟨hp, hs, _⟩, m, M', hM', _, _, _, hframes⟩ := growLoop_backs hb.backs hb.aligned hloop
    have he := addRegion_edits hw
    dsimp only
    rw [he.vmm, he.pml4, he.start, hp, hs, hM'.maps.translate]
    exact hframes i hi

theorem kmallocLoop_regrows (h₀ : kmallocLoop A total fuel h = .ok (p, h')) :
    Regrows A (kmallocLoopFrames A total fuel h) h h' := by
  induction fuel generalizing h with
  | zero => cases h₀
  | succ fuel ih =>
    obtain ⟨r, hfit, h₀⟩ := bind_ok h₀
    rw [kmallocLoopFrames, hfit]
    cases r with
    | some x =>
      cases h₀
      exact (takeBlock_edits ..).regrows
    | none =>
      obtain ⟨⟨y, g⟩, hgrow, h₀⟩ := bind_ok h₀
      have hg := heapGrowPages_regrows hgrow
      have hkeep := heapGrowPages_keepsBacked hgrow
      rw [hgrow]
      cases y with
      | true => exact hg.trans hkeep (ih h₀)
      | false =>
        obtain ⟨⟨z, w⟩, hgrow', h₀⟩ := bind_ok h₀
        have hw := heapGrowPages_regrows hgrow'
        refine hg.trans hkeep ?_
        dsimp only
        rw [hgrow']
        cases z with
        | true => exact hw.trans (heapGrowPages_keepsBacked hgrow') (ih h₀)
        | false =>
          cases h₀
          rw [List.append_nil]
          exact hw

theorem kmalloc_regrows (h₀ : kmalloc A h size = .ok (p, h')) :
    Regrows A (kmallocFrames A h size) h h' := by
  rw [kmalloc] at h₀
  rw [kmallocFrames]
  split at h₀
  · next hz =>
    cases h₀
    rw [if_pos hz]
    exact .refl
  · next hz =>
    rw [if_neg hz]
    exact kmallocLoop_regrows h₀

theorem setupHeap_regrows (hp : HhdmPlaced higherHalf) (hm : v.Maps A root M)
    (h₀ : setupHeap A higherHalf (Heap.initial v root bytes) = .ok h) (hi : i < maxPages) :
    h.vmm.translate h.pml4 (BitVec.ofNat 64 (h.heapStart + i * pageSize)) =
      regrow i (setupFrames A higherHalf (Heap.initial v root bytes))
        (M (heapPage (higherHalf + 0x10000000000) i)) := by
  have hroom := hp.room
  have hpages : pageSize * maxPages = 2 ^ 32 := by decide
  have hstart : u64 (higherHalf + 0x10000000000) = higherHalf + 0x10000000000 :=
    u64_of_lt (by omega)
  have hnone : v.Backs A root (higherHalf + 0x10000000000) 0 M :=
    ⟨hm, Nat.zero_le _, fun i hi => absurd hi (Nat.not_lt_zero i),
      fun i hi => absurd hi (Nat.not_lt_zero i)⟩
  obtain ⟨⟨r, g⟩, hgrow, h₀⟩ := bind_ok h₀
  have hfirst := heapGrowPages_regrows hgrow
  rw [setupFrames]
  rw [hstart] at hfirst ⊢
  have hg := hfirst
    ⟨0, M, hnone, (Nat.zero_mul _).symm, Nat.dvd_add hp.aligned (by decide), hroom⟩ i hi
  cases r with
  | false => cases h₀
  | true =>
    cases h₀
    rw [heapPage, ← hm.translate]
    exact hg

theorem Remapped.refl : Remapped k [] [] M M := ⟨.refl, fun _ _ => rfl⟩

theorem Remapped.trans (h₁ : Remapped k l frames M M') (h₂ : Remapped k l' frames' M' M'') :
    Remapped k (l ++ l') (frames ++ frames') M M'' := by
  refine ⟨h₁.aliases.trans h₂.aliases, fun i hi => ?_⟩
  rw [regrow_append, ← h₁.heap i hi]
  exact h₂.heap i hi

section Direct
variable (hd : h.Direct A k M) (hk : k.Regular) (hp : HhdmPlaced k.higherHalf)
include hd hk hp

theorem Heap.Direct.mapDirect_remapped (hs : k.Shown a) (hf : pteGetAddr flags = 0)
    (h₀ : h.mapDirect A k.higherHalf a flags = .ok (r, h')) :
    ∃ M', h'.Direct A k M' ∧ Remapped k [(a, flags)] [] M M' ∧ (r = false → M' = M) := by
  obtain ⟨M', hM', hover, hfail, _, hkeep⟩ := hd.mapDirect_keeps hk hp hs.lt hs.clear hf h₀
  refine ⟨M', hM', ⟨hover, fun i hi => ?_⟩, hfail⟩
  exact hkeep _ (directPage_ne_heapPage hk hp hs.lt hs.clear hi).symm

theorem Heap.Direct.regrown (hkeep : KeepsBacked A h h') (hr : Regrows A frames h h') :
    ∃ M', h'.Direct A k M' ∧ Remapped k [] frames M M' := by
  obtain ⟨M', hM', hover⟩ := hd.kept hk hp hkeep
  obtain ⟨n, hb⟩ := hd.backed
  refine ⟨M', hM', hover, fun i hi => ?_⟩
  have hpage := hr ⟨n, M, hb⟩ i hi
  rw [hM'.maps.translate, hd.maps.translate, hM'.start, hd.start] at hpage
  exact hpage

end Direct

end AdaOS
