import AdaOS.PageMap

namespace AdaOS
set_option autoImplicit true

variable {σ : Type} {A : FrameAllocator σ} {v v' : Vmm σ} {root : BitVec 64} {k : KernelLayout}

def KernelLayout.chunks (k : KernelLayout) : List Chunk :=
  k.desc.chunkPtr.take k.desc.chunkCount

/-- A page of the kernel image. -/
structure KernelLayout.ImagePage (k : KernelLayout) (virt : Nat) : Prop where
  aligned : pageSize ∣ virt
  base : k.virtualBase ≤ virt
  top : virt < alignUp k.bssEnd pageSize

/-- A page of the chunk `c`, a last partial page included. -/
structure Chunk.Page (c : Chunk) (p : Nat) : Prop where
  aligned : pageSize ∣ p
  base : c.base ≤ p
  top : p < alignUp c.bounds pageSize

/-- Page-aligned layouts of the higher half whose direct map stays off the kernel image. -/
structure KernelLayout.Regular (k : KernelLayout) : Prop where
  virtualBase : pageSize ∣ k.virtualBase
  physicalBase : pageSize ∣ k.physicalBase
  higherHalf : pageSize ∣ k.higherHalf
  kernelUpper : 2 ^ 64 - 2 ^ 47 ≤ k.virtualBase
  hhdmUpper : 2 ^ 64 - 2 ^ 47 ≤ k.higherHalf
  bssEnd : k.bssEnd + pageSize ≤ 2 ^ 64
  image : k.physicalBase + (alignUp k.bssEnd pageSize - k.virtualBase) ≤ 2 ^ 52
  sections : k.textEnd ≤ k.rodataStart
  chunkBase : ∀ c ∈ k.chunks, pageSize ∣ c.base
  physical : ∀ c ∈ k.chunks, c.base ≤ 2 ^ 52 ∧ c.bounds ≤ 2 ^ 52
  apart : ∀ c ∈ k.chunks, ∀ p, c.Page p →
    k.higherHalf + p < 2 ^ 64 ∧ ¬k.ImagePage (k.higherHalf + p)

theorem pageNumber_inj (ha : pageSize ∣ a) (hb : pageSize ∣ b) (hla : 2 ^ 64 - 2 ^ 47 ≤ a)
    (hlb : 2 ^ 64 - 2 ^ 47 ≤ b) (hua : a < 2 ^ 64) (hub : b < 2 ^ 64)
    (h : pageNumber (BitVec.ofNat 64 a) = pageNumber (BitVec.ofNat 64 b)) : a = b := by
  have hn := congrArg BitVec.toNat h
  rw [pageNumber_toNat, pageNumber_toNat, BitVec.toNat_ofNat, BitVec.toNat_ofNat,
    Nat.mod_eq_of_lt hua, Nat.mod_eq_of_lt hub] at hn
  simp only [pageSize] at ha hb
  omega

theorem mem_pagesBetween (hs : pageSize ∣ start) :
    (∃ i < pagesBetween start stop, addr = start + i * pageSize) ↔
      pageSize ∣ addr ∧ start ≤ addr ∧ addr < stop := by
  simp only [pagesBetween, pageSize] at *
  constructor
  · rintro ⟨i, hi, rfl⟩
    omega
  · rintro ⟨ha, hle, hlt⟩
    exact ⟨(addr - start) / 4096, by omega, by omega⟩

theorem imageFlags_addr : pteGetAddr (k.imageFlags virt) = 0 := by
  rw [KernelLayout.imageFlags]
  split
  · rfl
  · split
    · rfl
    · split <;> rfl

theorem KernelLayout.ImagePage.lt (h : k.ImagePage virt) (hk : k.Regular) : virt < 2 ^ 64 := by
  have hlt := alignUp_lt hk.bssEnd (by decide)
  have hb := hk.bssEnd
  have ht := h.top
  have ha := h.aligned
  have hd := alignUp_dvd k.bssEnd pageSize
  simp only [pageSize] at *
  omega

theorem KernelLayout.ImagePage.phys (h : k.ImagePage virt) (hk : k.Regular) :
    sub64 virt k.virtualBase + k.physicalBase = virt - k.virtualBase + k.physicalBase ∧
      virt - k.virtualBase + k.physicalBase < 2 ^ 52 := by
  have hb := h.base
  have ht := h.top
  have hi := hk.image
  exact ⟨by rw [sub64_of_le hb (h.lt hk)], by omega⟩

theorem mapImage_maps (hk : k.Regular) (h : v.Maps A root M)
    (hm : mapImage A k root v = .ok v') : ∃ M', v'.Maps A root M' ∧
    (∀ virt, k.ImagePage virt → M' (pageNumber (BitVec.ofNat 64 virt)) =
      some (BitVec.ofNat 64 (virt - k.virtualBase + k.physicalBase),
        k.imageFlags virt ||| ptePresent)) ∧
    ∀ q, (∀ virt, k.ImagePage virt → q ≠ pageNumber (BitVec.ofNat 64 virt)) → M' q = M q := by
  have hpage : ∀ virt, k.ImagePage virt ↔
      ∃ i < pagesBetween k.virtualBase (alignUp k.bssEnd pageSize),
        virt = k.virtualBase + i * pageSize := by
    intro virt
    rw [mem_pagesBetween hk.virtualBase]
    exact ⟨fun h => ⟨h.aligned, h.base, h.top⟩, fun ⟨ha, hb, ht⟩ => ⟨ha, hb, ht⟩⟩
  have himage : ∀ i < pagesBetween k.virtualBase (alignUp k.bssEnd pageSize),
      k.ImagePage (k.virtualBase + i * pageSize) := fun i hi => (hpage _).2 ⟨i, hi, rfl⟩
  have hlow : ∀ i < pagesBetween k.virtualBase (alignUp k.bssEnd pageSize),
      (k.imagePage (k.virtualBase + i * pageSize)).2.1.toNat < 2 ^ 52 := by
    intro i hi
    obtain ⟨hphys, hlt⟩ := (himage i hi).phys hk
    simp only [KernelLayout.imagePage, hphys, BitVec.toNat_ofNat]
    omega
  have hinj : ∀ i < pagesBetween k.virtualBase (alignUp k.bssEnd pageSize),
      ∀ j < pagesBetween k.virtualBase (alignUp k.bssEnd pageSize),
      pageNumber (k.imagePage (k.virtualBase + i * pageSize)).1 =
        pageNumber (k.imagePage (k.virtualBase + j * pageSize)).1 → i = j := by
    intro i hi j hj he
    have ha := himage i hi
    have hb := himage j hj
    have hkl := hk.kernelUpper
    have hij := pageNumber_inj ha.aligned hb.aligned (hkl.trans ha.base) (hkl.trans hb.base)
      (ha.lt hk) (hb.lt hk) he
    simp only [pageSize] at hij
    omega
  obtain ⟨M', hM', hset, hkeep⟩ := h.mapPages hlow (fun _ _ => imageFlags_addr) hinj hm
  refine ⟨M', hM', ?_, ?_⟩
  · intro virt hv
    obtain ⟨i, hi, rfl⟩ := (hpage virt).1 hv
    have hphys := (hv.phys hk).1
    have hdvd : pageSize ∣ k.virtualBase + i * pageSize - k.virtualBase + k.physicalBase :=
      Nat.dvd_add (Nat.dvd_sub hv.aligned hk.virtualBase) hk.physicalBase
    refine (hset i hi).trans ?_
    simp only [KernelLayout.imagePage, hphys, pageBase_of_dvd hdvd]
  · intro q hq
    exact hkeep q fun i hi => hq _ (himage i hi)

theorem directPage_inj (hk : k.Regular) (hc : c ∈ k.chunks) (hp : c.Page p)
    (hd : d ∈ k.chunks) (hr : d.Page r) (h : pageNumber (BitVec.ofNat 64 (p + k.higherHalf)) =
      pageNumber (BitVec.ofNat 64 (r + k.higherHalf))) : p = r := by
  have hpl := (hk.apart c hc p hp).1
  have hrl := (hk.apart d hd r hr).1
  have hu := hk.hhdmUpper
  have hpr := pageNumber_inj (Nat.dvd_add hp.aligned hk.higherHalf)
    (Nat.dvd_add hr.aligned hk.higherHalf) (by omega) (by omega) (by omega) (by omega) h
  omega

theorem Chunk.page_iff {c : Chunk} (hd : pageSize ∣ c.base) : c.Page p ↔
    ∃ i < pagesBetween c.base (alignUp c.bounds pageSize), p = c.base + i * pageSize := by
  rw [mem_pagesBetween hd]
  exact ⟨fun h => ⟨h.aligned, h.base, h.top⟩, fun ⟨ha, hb, ht⟩ => ⟨ha, hb, ht⟩⟩

/-- The loop over one chunk maps its pages and no others. -/
theorem mapChunk_maps (hk : k.Regular) (hc : c ∈ k.chunks) (h : v.Maps A root M)
    (hm : mapPages A root k.hhdmPage msg c.base
      (pagesBetween c.base (alignUp c.bounds pageSize)) v = .ok v') : ∃ M', v'.Maps A root M' ∧
    (∀ p, c.Page p → M' (pageNumber (BitVec.ofNat 64 (p + k.higherHalf))) =
      some (BitVec.ofNat 64 p, ptePresent ||| pteWritable)) ∧
    ∀ q, (∀ p, c.Page p → q ≠ pageNumber (BitVec.ofNat 64 (p + k.higherHalf))) →
      M' q = M q := by
  have hdirect : ∀ i < pagesBetween c.base (alignUp c.bounds pageSize),
      c.Page (c.base + i * pageSize) := fun i hi =>
    (Chunk.page_iff (hk.chunkBase c hc)).2 ⟨i, hi, rfl⟩
  have hlow : ∀ i < pagesBetween c.base (alignUp c.bounds pageSize),
      (k.hhdmPage (c.base + i * pageSize)).2.1.toNat < 2 ^ 52 := by
    intro i hi
    have ht := (hdirect i hi).top
    have hb := (hk.physical c hc).2
    have hlt := alignUp_lt (show c.bounds + pageSize ≤ 2 ^ 64 by simp only [pageSize]; omega)
      (by decide)
    have hdvd := alignUp_dvd c.bounds pageSize
    simp only [KernelLayout.hhdmPage, BitVec.toNat_ofNat]
    simp only [pageSize] at *
    omega
  have hinj : ∀ i < pagesBetween c.base (alignUp c.bounds pageSize),
      ∀ j < pagesBetween c.base (alignUp c.bounds pageSize),
      pageNumber (k.hhdmPage (c.base + i * pageSize)).1 =
        pageNumber (k.hhdmPage (c.base + j * pageSize)).1 → i = j := by
    intro i hi j hj he
    have hij := directPage_inj hk hc (hdirect i hi) hc (hdirect j hj) he
    simp only [pageSize] at hij
    omega
  have hflags : pteGetAddr (ptePresent ||| pteWritable) = 0 := rfl
  obtain ⟨M', hM', hset, hkeep⟩ := h.mapPages hlow (fun _ _ => hflags) hinj hm
  refine ⟨M', hM', fun p hp => ?_, fun q hq => hkeep q fun i hi => hq _ (hdirect i hi)⟩
  obtain ⟨i, hi, rfl⟩ := (Chunk.page_iff (hk.chunkBase c hc)).1 hp
  refine (hset i hi).trans ?_
  simp only [KernelLayout.hhdmPage, pageBase_of_dvd hp.aligned]
  rfl

theorem mapChunks_maps (hk : k.Regular) (hcs : ∀ c ∈ cs, c ∈ k.chunks) (h : v.Maps A root M)
    (hm : mapChunks A k root cs v = .ok v') : ∃ M', v'.Maps A root M' ∧
    (∀ c ∈ cs, ∀ p, c.Page p → M' (pageNumber (BitVec.ofNat 64 (p + k.higherHalf))) =
      some (BitVec.ofNat 64 p, ptePresent ||| pteWritable)) ∧
    ∀ q, (∀ c ∈ cs, ∀ p, c.Page p → q ≠ pageNumber (BitVec.ofNat 64 (p + k.higherHalf))) →
      M' q = M q := by
  induction cs generalizing v M with
  | nil =>
    cases hm
    exact ⟨M, h, (fun c hc => nomatch hc), fun _ _ => rfl⟩
  | cons c cs ih =>
    obtain ⟨hc, hcs⟩ := List.forall_mem_cons.1 hcs
    have hbase : alignUp c.base pageSize = c.base := by
      have hle := (hk.physical c hc).1
      exact alignUp_of_dvd (by simp only [pageSize]; omega) (by decide) (hk.chunkBase c hc)
    rw [mapChunks, hbase] at hm
    split at hm
    · next hskip =>
      obtain ⟨M', hM', hset, hkeep⟩ := ih hcs h hm
      have hno : ∀ p, ¬c.Page p := by
        intro p hp
        have hb := hp.base
        have ht := hp.top
        omega
      refine ⟨M', hM', List.forall_mem_cons.2 ⟨fun p hp => (hno p hp).elim, hset⟩, ?_⟩
      intro q hq
      exact hkeep q (List.forall_mem_cons.1 hq).2
    · obtain ⟨w, hloop, hm⟩ := bind_ok hm
      obtain ⟨M₁, hM₁, hset₁, hkeep₁⟩ := mapChunk_maps hk hc h hloop
      obtain ⟨M', hM', hset, hkeep⟩ := ih hcs hM₁ hm
      refine ⟨M', hM', List.forall_mem_cons.2 ⟨fun p hp => ?_, hset⟩, fun q hq => ?_⟩
      · by_cases hlater : ∃ d ∈ cs, ∃ r, d.Page r ∧
            pageNumber (BitVec.ofNat 64 (p + k.higherHalf)) =
              pageNumber (BitVec.ofNat 64 (r + k.higherHalf))
        · obtain ⟨d, hd, r, hr, he⟩ := hlater
          obtain rfl := directPage_inj hk hc hp (hcs d hd) hr he
          exact hset d hd p hr
        · rw [hkeep _ fun d hd r hr he => hlater ⟨d, hd, r, hr, he⟩]
          exact hset₁ p hp
      · obtain ⟨hq₁, hq⟩ := List.forall_mem_cons.1 hq
        rw [hkeep q hq]
        exact hkeep₁ q hq₁

theorem setupPml4_maps (ht : v.trace = []) (h : setupPml4 A v = .ok (root, v')) :
    v'.Maps A root fun _ => none := by
  obtain ⟨w, hz, htrace, hheld, hpre⟩ := setupPml4_ok h
  have hw : w.Owned A root := .single hz (ht ▸ htrace) hheld
  obtain ⟨hg, _⟩ := preallocate_spec hw hpre
  have ho := hw.grows hg
  have hopen := hg.openTables hw.tree hw.held (Vmm.openTables_of_empty hz)
  refine ⟨ho.tree, ho.held, hopen, fun virt => ?_⟩
  rw [hg.translate hw.tree hw.held, Vmm.translate_eq, hz]
  rfl

/-- The kernel's pagemap stands for some page map, whatever the layout. -/
theorem setupVmm_maps (h : setupVmm A k ⟨mem, s, []⟩ = .ok (root, v)) :
    ∃ M, v.Maps A root M := by
  obtain ⟨w, hp, hr⟩ := setupVmm_run h
  have ho := (setupPml4_owned rfl hp).1
  exact ⟨_, (hr.owned ho).maps (hr.openTables ho (setupPml4_maps rfl hp).openTables)⟩

/-- The rights the kernel image is to have, by the section its pages start in. -/
structure KernelLayout.Rights (k : KernelLayout) (virt : Nat) (a : Access) : Prop where
  text : k.textStart ≤ virt ∧ virt < k.textEnd → a.writable = false ∧ a.executable = true
  rodata : k.rodataStart ≤ virt ∧ virt < k.rodataEnd → a.writable = false ∧ a.executable = false
  other : ¬(k.textStart ≤ virt ∧ virt < k.textEnd) →
    ¬(k.rodataStart ≤ virt ∧ virt < k.rodataEnd) → a.writable = true ∧ a.executable = false

theorem imageFlags_rights (hk : k.Regular) (virt : Nat) (frame : BitVec 64) :
    k.Rights virt ⟨frame, hasFlag (k.imageFlags virt ||| ptePresent) pteWritable,
      !hasFlag (k.imageFlags virt ||| ptePresent) pteNx⟩ := by
  have hs := hk.sections
  rw [KernelLayout.imageFlags]
  constructor
  · intro ht
    rw [if_pos ht]
    exact ⟨rfl, rfl⟩
  · intro hr
    rw [if_neg (by omega), if_pos hr]
    exact ⟨rfl, rfl⟩
  · intro ht hr
    rw [if_neg ht, if_neg hr]
    split <;> exact ⟨rfl, rfl⟩

/-- The address space after the kernel-image loop and the HHDM loop: the kernel image with the
rights of its sections, the direct map of the chunks, and nothing else. -/
theorem mapKernel_access (hk : k.Regular) (h : mapKernel A k ⟨mem, s, []⟩ = .ok (root, v)) :
    (∀ virt, k.ImagePage virt → ∃ a, v.access root (BitVec.ofNat 64 virt) = some a ∧
      a.frame = BitVec.ofNat 64 (virt - k.virtualBase + k.physicalBase) ∧ k.Rights virt a) ∧
    (∀ c ∈ k.chunks, ∀ p, c.Page p → ∃ a,
      v.access root (BitVec.ofNat 64 (k.higherHalf + p)) = some a ∧
      a.frame = BitVec.ofNat 64 p ∧ a.writable = true) ∧
    (∀ virt a, v.access root virt = some a → ∃ addr,
      pageNumber virt = pageNumber (BitVec.ofNat 64 addr) ∧
      (k.ImagePage addr ∨ ∃ c ∈ k.chunks, ∃ p, c.Page p ∧ addr = k.higherHalf + p)) := by
  obtain ⟨⟨r, v₁⟩, hp, h⟩ := bind_ok h
  obtain ⟨v₂, hi, h⟩ := bind_ok h
  obtain ⟨v₃, hc, h⟩ := bind_ok h
  cases h
  obtain ⟨M₁, hM₁, hset₁, hkeep₁⟩ := mapImage_maps hk (setupPml4_maps rfl hp) hi
  obtain ⟨M₂, hM₂, hset₂, hkeep₂⟩ := mapChunks_maps hk (fun c hc => hc) hM₁ hc
  refine ⟨?_, ?_, ?_⟩
  · intro virt hv
    have hapart : ∀ c ∈ k.chunks, ∀ p, c.Page p → pageNumber (BitVec.ofNat 64 virt) ≠
        pageNumber (BitVec.ofNat 64 (p + k.higherHalf)) := by
      intro c hc p hp he
      obtain ⟨hlt, hno⟩ := hk.apart c hc p hp
      have hu := hk.hhdmUpper
      have hvp := pageNumber_inj hv.aligned (Nat.dvd_add hp.aligned hk.higherHalf)
        (hk.kernelUpper.trans hv.base) (by omega) (hv.lt hk) (by omega) he
      rw [hvp, Nat.add_comm] at hv
      exact hno hv
    have hval := (hkeep₂ _ hapart).trans (hset₁ virt hv)
    refine ⟨_, by rw [hM₂.access, hval]; rfl, rfl, imageFlags_rights hk virt _⟩
  · intro c hc p hp
    have hval := hset₂ c hc p hp
    rw [Nat.add_comm] at hval
    exact ⟨_, by rw [hM₂.access, hval]; rfl, rfl, rfl⟩
  · intro virt a ha
    rw [hM₂.access] at ha
    by_contra hno
    rw [not_exists] at hno
    rw [hkeep₂, hkeep₁] at ha
    · cases ha
    · intro addr haddr he
      exact hno addr ⟨he, .inl haddr⟩
    · intro c hc p hp he
      rw [Nat.add_comm] at he
      exact hno _ ⟨he, .inr ⟨c, hc, p, hp, rfl⟩⟩

/-- Another chunk, with its direct map below the kernel image. -/
theorem KernelLayout.Regular.withChunk (hk : k.Regular) (n : Nat) (hd : pageSize ∣ c.base)
    (hphys : c.base ≤ 2 ^ 52 ∧ c.bounds ≤ 2 ^ 52)
    (hbelow : k.higherHalf + alignUp c.bounds pageSize ≤ k.virtualBase)
    (hv : k.virtualBase ≤ 2 ^ 64) : { k with desc := ⟨n, 1, [c]⟩ }.Regular where
  virtualBase := hk.virtualBase
  physicalBase := hk.physicalBase
  higherHalf := hk.higherHalf
  kernelUpper := hk.kernelUpper
  hhdmUpper := hk.hhdmUpper
  bssEnd := hk.bssEnd
  image := hk.image
  sections := hk.sections
  chunkBase := List.forall_mem_singleton.2 hd
  physical := List.forall_mem_singleton.2 hphys
  apart := by
    intro c' hc p hp
    have hc' : c' = c := List.mem_singleton.1 hc
    have htop := hp.top
    rw [hc'] at htop
    refine ⟨show k.higherHalf + p < 2 ^ 64 by omega, fun himage => ?_⟩
    have hlow : k.virtualBase ≤ k.higherHalf + p := himage.base
    omega

theorem smallLayout_regular : smallLayout.Regular where
  virtualBase := by decide
  physicalBase := by decide
  higherHalf := by decide
  kernelUpper := by decide
  hhdmUpper := by decide
  bssEnd := by decide
  image := by decide
  sections := by decide
  chunkBase := by decide
  physical := by decide
  apart := by
    intro c hc p hp
    have hc' : c = ⟨0x1000000, 0x1004000⟩ := List.mem_singleton.1 hc
    subst hc'
    have htop : p < 0x1004000 := hp.top
    have hhalf : smallLayout.higherHalf = 0xffff800000000000 := rfl
    have hbase : smallLayout.virtualBase = 0xffffffff80000000 := rfl
    refine ⟨by omega, fun himage => ?_⟩
    have hlow := himage.base
    omega

theorem mapKernel_access_small : ∃ (x : OwnedPmm oneChunk) (root : BitVec 64)
    (v : Vmm (OwnedPmm oneChunk)),
    mapKernel (pmmFrames oneChunk_sound) smallLayout ⟨fun _ _ => 0, x, []⟩ = .ok (root, v) ∧
    (∀ virt, smallLayout.ImagePage virt → ∃ a, v.access root (BitVec.ofNat 64 virt) = some a ∧
      a.frame = BitVec.ofNat 64 (virt - smallLayout.virtualBase + smallLayout.physicalBase) ∧
      smallLayout.Rights virt a) ∧
    (∀ c ∈ smallLayout.chunks, ∀ p, c.Page p → ∃ a,
      v.access root (BitVec.ofNat 64 (smallLayout.higherHalf + p)) = some a ∧
      a.frame = BitVec.ofNat 64 p ∧ a.writable = true) ∧
    (∀ virt a, v.access root virt = some a → ∃ addr,
      pageNumber virt = pageNumber (BitVec.ofNat 64 addr) ∧
      (smallLayout.ImagePage addr ∨
        ∃ c ∈ smallLayout.chunks, ∃ p, c.Page p ∧ addr = smallLayout.higherHalf + p)) := by
  obtain ⟨x, _, hl⟩ := oneChunk_frames
  have hframes : smallLayout.mapFrames = 24 := rfl
  have hl' : (pmmFrames oneChunk_sound).Lasts (0 + smallLayout.mapFrames + 512 + 1) x := by
    apply hl.mono
    rw [hframes]
    omega
  obtain ⟨root, v, hs, _⟩ := mapKernel_lasts (v := ⟨fun _ _ => 0, x, []⟩) hl'
  exact ⟨x, root, v, hs, mapKernel_access smallLayout_regular hs⟩

end AdaOS
