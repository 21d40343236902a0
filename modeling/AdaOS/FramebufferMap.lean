import AdaOS.DirectMap

namespace AdaOS
set_option autoImplicit true

/-- Every call of `map_page` in the framebuffer loop returns true. -/
def FramebufferMaps (A : FrameAllocator σ) (pml4 : BitVec 64) : Nat → Nat → Nat → Vmm σ → Prop
  | _, _, 0, _ => True
  | virt, phys, n + 1, v =>
    ∃ w, mapPage A v pml4 (BitVec.ofNat 64 virt) (BitVec.ofNat 64 phys) fbFlags = .ok (true, w) ∧
      FramebufferMaps A pml4 (virt + pageSize) (phys + pageSize) n w

/-- A run of `setup_vmm` in which all calls of `map_page` succeed. Those of the other loops do when
it returns at all, since their failure is a panic. -/
structure SetupSucceeds (A : FrameAllocator σ) (k : KernelLayout) (v : Vmm σ) (root : BitVec 64)
    (v' : Vmm σ) : Prop where
  setup : setupVmm A k v = .ok (root, v')
  framebuffer : ∀ w, mapKernel A k v = .ok (root, w) →
    FramebufferMaps A root k.fbAddress (sub64 k.fbAddress k.higherHalf) k.fbPages w

/-- A byte of the framebuffer; from 2^64 on there are no addresses. -/
structure KernelLayout.FramebufferByte (k : KernelLayout) (b : Nat) : Prop where
  base : k.fbAddress ≤ b
  top : b < k.fbAddress + k.fbPitch * k.fbHeight
  lt : b < 2 ^ 64

/-- An address translates to itself minus `HIGHER_HALF`, and its page is writable. -/
def Vmm.ShowsWritable (v : Vmm σ) (root : BitVec 64) (k : KernelLayout) (b : Nat) : Prop :=
  ∃ a, v.access root (BitVec.ofNat 64 b) = some a ∧
    a.frame = BitVec.ofNat 64 (pageOf (b - k.higherHalf)) ∧ a.writable = true

/-- A page that the loops before the framebuffer's map so: a page of the direct map, or a writable
page of the kernel image that lies in physical memory where the direct map would have it. -/
def KernelLayout.Premapped (k : KernelLayout) (virt : Nat) : Prop :=
  (∃ c ∈ k.chunks, c.Page (virt - k.higherHalf)) ∨
    k.ImagePage virt ∧ virt - k.virtualBase + k.physicalBase = virt - k.higherHalf ∧
      hasFlag (k.imageFlags virt) pteWritable = true

/-- The pages that are counted, from the one of the first byte on, reach a byte, or its page is
premapped. -/
def KernelLayout.Covered (k : KernelLayout) (b : Nat) : Prop :=
  pageOf b < pageOf k.fbAddress + k.fbPages * pageSize ∨ k.Premapped (pageOf b)

/-- The arguments of `map_page` in the framebuffer loop, at `virt_addr`. -/
def KernelLayout.fbPage (k : KernelLayout) (virt : Nat) : BitVec 64 × BitVec 64 × BitVec 64 :=
  (BitVec.ofNat 64 virt, BitVec.ofNat 64 (virt - k.higherHalf), fbFlags)

variable {σ : Type} {A : FrameAllocator σ} {v v' : Vmm σ} {root : BitVec 64} {k : KernelLayout}
  {M : PageMap}

theorem FramebufferMaps.mapPages (h : FramebufferMaps A root virt (virt - k.higherHalf) n v)
    (hle : k.higherHalf ≤ virt)
    (hm : mapFramebuffer A root virt (virt - k.higherHalf) n v = .ok v') (msg : String) :
    mapPages A root k.fbPage msg virt n v = .ok v' := by
  induction n generalizing virt v with
  | zero => exact hm
  | succ n ih =>
    obtain ⟨w, hstep, hrest⟩ := h
    rw [mapFramebuffer] at hm
    change (mapPage A v root _ _ fbFlags >>= _) = _ at hm
    rw [bind_of_ok hstep] at hm
    have hnext : virt - k.higherHalf + pageSize = virt + pageSize - k.higherHalf := by omega
    rw [hnext] at hrest
    simp only [hnext] at hm
    exact (bind_of_ok hstep _).trans (ih hrest (by omega) hm)

theorem fbPages_lt (k : KernelLayout) : k.fbPages < 2 ^ 20 := by
  rw [KernelLayout.fbPages, pageSize]
  omega

theorem pageOf_sub (hd : pageSize ∣ c) (a : Nat) : pageOf (a - c) = pageOf a - c := by
  obtain ⟨q, rfl⟩ := hd
  rw [pageOf, pageOf, Nat.sub_mul_div, Nat.sub_mul, Nat.mul_comm q]

theorem pageNumber_congr (h : pageOf a = pageOf b) :
    pageNumber (BitVec.ofNat 64 a) = pageNumber (BitVec.ofNat 64 b) := by
  rw [← BitVec.toNat_inj, pageNumber_toNat, pageNumber_toNat, BitVec.toNat_ofNat,
    BitVec.toNat_ofNat]
  simp only [pageOf, pageSize] at h
  omega

theorem pageOf_eq_of_pageNumber (hle : a ≤ b) (hlt : b < a + 2 ^ 47)
    (h : pageNumber (BitVec.ofNat 64 b) = pageNumber (BitVec.ofNat 64 a)) :
    pageOf b = pageOf a := by
  rw [← BitVec.toNat_inj, pageNumber_toNat, pageNumber_toNat, BitVec.toNat_ofNat,
    BitVec.toNat_ofNat] at h
  simp only [pageOf, pageSize]
  omega

/-- The loop maps `n` pages from the one of `virt` on as it should, and leaves those after them
as they were. It may go on beyond 2^64, where its pages are those of low addresses. -/
theorem FramebufferMaps.maps (h : FramebufferMaps A root virt (virt - k.higherHalf) n v)
    (hk : k.Regular) (hle : k.higherHalf ≤ virt) (hlt : virt < 2 ^ 64) (hn : n < 2 ^ 20)
    (hmaps : v.Maps A root M)
    (hm : mapFramebuffer A root virt (virt - k.higherHalf) n v = .ok v') :
    ∃ M', v'.Maps A root M' ∧
      (∀ b, virt ≤ b → pageOf b < pageOf virt + n * pageSize →
        M' (pageNumber (BitVec.ofNat 64 b)) =
          some (BitVec.ofNat 64 (pageOf (b - k.higherHalf)), fbFlags ||| ptePresent)) ∧
      ∀ b, b < 2 ^ 64 → pageOf virt + n * pageSize ≤ pageOf b →
        M' (pageNumber (BitVec.ofNat 64 b)) = M (pageNumber (BitVec.ofNat 64 b)) := by
  have hu := hk.hhdmUpper
  have hd := hk.higherHalf
  have hphys : ∀ i < n, (k.fbPage (virt + i * pageSize)).2.1.toNat < 2 ^ 52 := by
    intro i hi
    simp only [KernelLayout.fbPage, BitVec.toNat_ofNat, pageSize]
    omega
  have hflags : pteGetAddr fbFlags = 0 := by decide
  have hinj : ∀ i < n, ∀ j < n, pageNumber (k.fbPage (virt + i * pageSize)).1 =
      pageNumber (k.fbPage (virt + j * pageSize)).1 → i = j := by
    intro i hi j hj he
    rw [← BitVec.toNat_inj, pageNumber_toNat, pageNumber_toNat] at he
    simp only [KernelLayout.fbPage, BitVec.toNat_ofNat, pageSize] at he
    omega
  obtain ⟨M', hM', hset, hkeep⟩ :=
    hmaps.mapPages hphys (fun _ _ => hflags) hinj (h.mapPages hle hm "")
  refine ⟨M', hM', fun b hb hin => ?_, fun b hb hafter => ?_⟩
  · obtain ⟨i, hi, hpage⟩ : ∃ i < n, pageOf (virt + i * pageSize) = pageOf b := by
      simp only [pageOf, pageSize] at *
      exact ⟨b / 4096 - virt / 4096, by omega, by omega⟩
    have hframe : pageOf (virt + i * pageSize - k.higherHalf) = pageOf (b - k.higherHalf) := by
      rw [pageOf_sub hk.higherHalf, pageOf_sub hk.higherHalf, hpage]
    have hval := hset i hi
    rw [KernelLayout.fbPage] at hval
    rw [← pageNumber_congr hpage, hval, pageBase_ofNat, hframe]
  · apply hkeep
    intro i hi he
    simp only [KernelLayout.fbPage] at he
    have hbelow : virt + i * pageSize ≤ b ∧ pageOf b ≠ pageOf (virt + i * pageSize) := by
      simp only [pageOf, pageSize] at *
      omega
    exact hbelow.2 (pageOf_eq_of_pageNumber hbelow.1 (by omega) he)

theorem imageFlags_writable (k : KernelLayout) (virt : Nat) :
    hasFlag (k.imageFlags virt ||| ptePresent) pteWritable =
      hasFlag (k.imageFlags virt) pteWritable := by
  rw [KernelLayout.imageFlags]
  split_ifs <;> decide

/-- An entry of a page map that shows the page of `b` minus `HIGHER_HALF` and lets it be written. -/
def KernelLayout.Direct (k : KernelLayout) (M : PageMap) (b : Nat) : Prop :=
  ∃ flags, M (pageNumber (BitVec.ofNat 64 b)) =
      some (BitVec.ofNat 64 (pageOf (b - k.higherHalf)), flags) ∧
    hasFlag flags pteWritable = true

theorem KernelLayout.direct_pageOf (hk : k.Regular) : k.Direct M (pageOf b) ↔ k.Direct M b := by
  rw [KernelLayout.Direct, KernelLayout.Direct, pageNumber_congr (pageOf_of_dvd (pageOf_dvd b)),
    pageOf_sub hk.higherHalf, pageOf_sub hk.higherHalf, pageOf_of_dvd (pageOf_dvd b)]

theorem Vmm.Maps.showsWritable_iff (h : v.Maps A root M) :
    v.ShowsWritable root k b ↔ k.Direct M b := by
  rw [Vmm.ShowsWritable, KernelLayout.Direct, h.access]
  constructor
  · rintro ⟨a, ha, hframe, hwritable⟩
    obtain ⟨⟨frame, flags⟩, hentry, rfl⟩ := Option.map_eq_some_iff.1 ha
    exact ⟨flags, hentry.trans (congrArg (fun f => some (f, flags)) hframe), hwritable⟩
  · rintro ⟨flags, hentry, hwritable⟩
    rw [hentry]
    exact ⟨_, rfl, rfl, hwritable⟩

/-- The loops before the framebuffer's leave such an entry exactly for the premapped pages. -/
theorem mapKernel_direct_iff (hk : k.Regular) (h : mapKernel A k ⟨mem, s, []⟩ = .ok (root, v)) :
    ∃ M, v.Maps A root M ∧ ∀ p, pageSize ∣ p → k.higherHalf ≤ p → p < 2 ^ 64 →
      (k.Direct M p ↔ k.Premapped p) := by
  obtain ⟨⟨r, v₁⟩, hp, h⟩ := bind_ok h
  obtain ⟨v₂, hi, h⟩ := bind_ok h
  obtain ⟨v₃, hc, h⟩ := bind_ok h
  cases h
  obtain ⟨M₁, hM₁, hset₁, hkeep₁⟩ := mapImage_maps hk (setupPml4_maps rfl hp) hi
  obtain ⟨M₂, hM₂, hset₂, hkeep₂⟩ := mapChunks_maps hk (fun c hc => hc) hM₁ hc
  refine ⟨M₂, hM₂, fun p hd hle hlt => ?_⟩
  have hu := hk.hhdmUpper
  have hphys : pageOf (p - k.higherHalf) = p - k.higherHalf := by
    rw [pageOf_sub hk.higherHalf, pageOf_of_dvd hd]
  rw [KernelLayout.Direct, hphys]
  by_cases hchunk : ∃ c ∈ k.chunks, c.Page (p - k.higherHalf)
  · obtain ⟨c, hc, hpage⟩ := hchunk
    have hval := hset₂ c hc _ hpage
    rw [Nat.sub_add_cancel hle] at hval
    exact iff_of_true ⟨_, hval, by decide⟩ (.inl ⟨c, hc, hpage⟩)
  · have hbefore : M₂ (pageNumber (BitVec.ofNat 64 p)) = M₁ (pageNumber (BitVec.ofNat 64 p)) := by
      apply hkeep₂
      intro c hc r hr he
      have hrl := (hk.apart c hc r hr).1
      have hpr := pageNumber_inj hd (Nat.dvd_add hr.aligned hk.higherHalf) (by omega) (by omega)
        hlt (by omega) he
      apply hchunk
      rw [hpr, Nat.add_sub_cancel]
      exact ⟨c, hc, hr⟩
    rw [hbefore]
    by_cases himage : k.ImagePage p
    · have hlow := (himage.phys hk).2
      rw [hset₁ p himage]
      constructor
      · rintro ⟨flags, hentry, hwritable⟩
        obtain ⟨hframe, rfl⟩ := Prod.mk.inj (Option.some.inj hentry)
        have hnat := congrArg BitVec.toNat hframe
        rw [BitVec.toNat_ofNat, BitVec.toNat_ofNat, Nat.mod_eq_of_lt (by omega),
          Nat.mod_eq_of_lt (by omega)] at hnat
        rw [imageFlags_writable] at hwritable
        exact .inr ⟨himage, hnat, hwritable⟩
      · rintro (hpre | ⟨_, hframe, hwritable⟩)
        · exact absurd hpre hchunk
        · rw [hframe]
          exact ⟨_, rfl, (imageFlags_writable k p).trans hwritable⟩
    · have hnone : M₁ (pageNumber (BitVec.ofNat 64 p)) = none := by
        apply hkeep₁
        intro virt hv he
        have hpv := pageNumber_inj hd hv.aligned (by omega) (hk.kernelUpper.trans hv.base) hlt
          (hv.lt hk) he
        rw [hpv] at himage
        exact himage hv
      rw [hnone]
      constructor
      · rintro ⟨flags, hentry, _⟩
        cases hentry
      · rintro (hpre | hpre)
        · exact absurd hpre hchunk
        · exact absurd hpre.1 himage

theorem SetupSucceeds.showsWritable_iff (h : SetupSucceeds A k ⟨mem, s, []⟩ root v)
    (hk : k.Regular) (hbase : k.higherHalf ≤ k.fbAddress) (hlt : k.fbAddress < 2 ^ 64)
    (hb : k.FramebufferByte b) : v.ShowsWritable root k b ↔ k.Covered b := by
  obtain ⟨⟨r, w⟩, hkernel, hloop⟩ := bind_ok h.setup
  obtain ⟨u, hloop, hret⟩ := bind_ok hloop
  cases hret
  have hfb := h.framebuffer w hkernel
  rw [sub64_of_le hbase hlt] at hfb hloop
  obtain ⟨M₁, hM₁, hbefore⟩ := mapKernel_direct_iff hk hkernel
  obtain ⟨M, hM, hset, hkeep⟩ := hfb.maps hk hbase hlt (fbPages_lt k) hM₁ hloop
  have hle := hb.base
  have hbyte := hb.lt
  rw [hM.showsWritable_iff, KernelLayout.Covered]
  by_cases hin : pageOf b < pageOf k.fbAddress + k.fbPages * pageSize
  · exact iff_of_true ⟨_, hset b hle hin, by decide⟩ (.inl hin)
  · have hlow := pageOf_le b
    have hpage : k.higherHalf ≤ pageOf b := by
      rw [← pageOf_of_dvd hk.higherHalf]
      exact Nat.mul_le_mul_right _ (Nat.div_le_div_right (hbase.trans hle))
    have hentry := hkeep b hbyte (Nat.le_of_not_lt hin)
    rw [or_iff_right hin, ← hbefore (pageOf b) (pageOf_dvd b) hpage (by omega),
      KernelLayout.direct_pageOf hk, KernelLayout.Direct, KernelLayout.Direct, hentry]

theorem KernelLayout.covered_of_aligned (hd : pageSize ∣ k.fbAddress)
    (hsize : k.fbPitch * k.fbHeight + pageSize ≤ 2 ^ 32) (hb : k.FramebufferByte b) :
    k.Covered b := by
  have htop := hb.top
  have hlow := pageOf_le b
  left
  rw [pageOf_of_dvd hd, KernelLayout.fbPages]
  simp only [pageSize] at *
  omega

theorem framebufferMaps_lasts (root : BitVec 64) (virt phys : Nat)
    (h : A.Lasts (m + n * 3) v.frames) : FramebufferMaps A root virt phys n v := by
  induction n generalizing v virt phys with
  | zero => trivial
  | succ n ih =>
    obtain ⟨w, hstep, hl, _⟩ := mapPage_lasts (n := m + n * 3) (h.mono (by omega)) root
      (BitVec.ofNat 64 virt) (BitVec.ofNat 64 phys) fbFlags
    exact ⟨w, hstep, ih _ _ hl⟩

theorem setupSucceeds_lasts (h : A.Lasts (n + k.fbPages * 3 + k.mapFrames + 512 + 1) v.frames) :
    ∃ root v', SetupSucceeds A k v root v' := by
  obtain ⟨root, w, hkernel, hl, _⟩ := mapKernel_lasts h
  obtain ⟨v', hloop, _⟩ := mapFramebuffer_lasts root k.fbAddress
    (sub64 k.fbAddress k.higherHalf) hl
  refine ⟨root, v', (bind_of_ok hkernel _).trans ((bind_of_ok hloop _).trans rfl), fun u hu => ?_⟩
  rw [hkernel] at hu
  cases hu
  exact framebufferMaps_lasts root _ _ hl

/-- The whole framebuffer is mapped exactly when the pages that are counted cover it, or the rest of
it is premapped. -/
theorem framebuffer_mapped_iff (hk : k.Regular) (hbase : k.higherHalf ≤ k.fbAddress)
    (hlt : k.fbAddress < 2 ^ 64) (h : SetupSucceeds A k ⟨mem, s, []⟩ root v) :
    (∀ b, k.FramebufferByte b → v.ShowsWritable root k b) ↔
      ∀ b, k.FramebufferByte b → k.Covered b :=
  forall_congr' fun _ => forall_congr' fun hb => h.showsWritable_iff hk hbase hlt hb

/-- The framebuffer of `smallLayout` has two pages, which are mapped. -/
theorem framebuffer_mapped_small : ∃ (x : OwnedPmm oneChunk) (root : BitVec 64)
    (v : Vmm (OwnedPmm oneChunk)),
    SetupSucceeds (pmmFrames oneChunk_sound) smallLayout ⟨fun _ _ => 0, x, []⟩ root v ∧
    ∀ b, smallLayout.FramebufferByte b → v.ShowsWritable root smallLayout b := by
  obtain ⟨x, _, hl⟩ := oneChunk_frames
  have hframes : smallLayout.mapFrames = 24 ∧ smallLayout.fbPages = 2 := ⟨rfl, rfl⟩
  have hl' : (pmmFrames oneChunk_sound).Lasts (0 + smallLayout.fbPages * 3 +
      smallLayout.mapFrames + 512 + 1) x := by
    apply hl.mono
    rw [hframes.1, hframes.2]
    omega
  obtain ⟨root, v, h⟩ := setupSucceeds_lasts (v := ⟨fun _ _ => 0, x, []⟩) hl'
  refine ⟨x, root, v, h, ?_⟩
  apply (framebuffer_mapped_iff smallLayout_regular (by decide) (by decide) h).2
  exact fun b hb => KernelLayout.covered_of_aligned (by decide) (by decide) hb

def unalignedLayout : KernelLayout := { smallLayout with fbAddress := 0xffff8000fd000800 }

theorem unalignedLayout_regular : unalignedLayout.Regular where
  virtualBase := smallLayout_regular.virtualBase
  physicalBase := smallLayout_regular.physicalBase
  higherHalf := smallLayout_regular.higherHalf
  kernelUpper := smallLayout_regular.kernelUpper
  hhdmUpper := smallLayout_regular.hhdmUpper
  bssEnd := smallLayout_regular.bssEnd
  image := smallLayout_regular.image
  sections := smallLayout_regular.sections
  chunkBase := smallLayout_regular.chunkBase
  physical := smallLayout_regular.physical
  apart := by
    intro c hc p hp
    obtain ⟨hlt, hno⟩ := smallLayout_regular.apart c hc p hp
    exact ⟨hlt, fun himage => hno ⟨himage.aligned, himage.base, himage.top⟩⟩

/-- Its last half page is not mapped. -/
theorem unaligned_framebuffer_unmapped :
    ¬∀ (k : KernelLayout) (x : OwnedPmm oneChunk) (root : BitVec 64)
        (v : Vmm (OwnedPmm oneChunk)), k.Regular → k.higherHalf ≤ k.fbAddress →
      k.fbAddress < 2 ^ 64 →
      SetupSucceeds (pmmFrames oneChunk_sound) k ⟨fun _ _ => 0, x, []⟩ root v →
      ∀ b, k.FramebufferByte b → v.ShowsWritable root k b := by
  intro hall
  obtain ⟨x, _, hl⟩ := oneChunk_frames
  have hframes : unalignedLayout.mapFrames = 24 ∧ unalignedLayout.fbPages = 2 := ⟨rfl, rfl⟩
  have hl' : (pmmFrames oneChunk_sound).Lasts (0 + unalignedLayout.fbPages * 3 +
      unalignedLayout.mapFrames + 512 + 1) x := by
    apply hl.mono
    rw [hframes.1, hframes.2]
    omega
  obtain ⟨root, v, h⟩ := setupSucceeds_lasts (v := ⟨fun _ _ => 0, x, []⟩) hl'
  have hb : unalignedLayout.FramebufferByte 0xffff8000fd002000 :=
    ⟨by decide, by decide, by decide⟩
  have hshow := hall unalignedLayout x root v unalignedLayout_regular (by decide) (by decide) h _ hb
  obtain hin | ⟨c, hc, hpage⟩ | ⟨himage, _⟩ :=
    (h.showsWritable_iff unalignedLayout_regular (by decide) (by decide) hb).1 hshow
  · exact absurd hin (by decide)
  · have hc' : c = ⟨0x1000000, 0x1004000⟩ := List.mem_singleton.1 hc
    subst hc'
    exact absurd hpage.top (by decide)
  · exact absurd himage.base (by decide)

end AdaOS
