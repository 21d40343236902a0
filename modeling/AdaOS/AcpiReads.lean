import AdaOS.MadtCovers

namespace AdaOS
set_option autoImplicit true
open ByteMem

/-- The bytes are read through their aliases in the direct map. -/
def AcpiEvent.ThroughAlias (k : KernelLayout) : AcpiEvent σ → Prop
  | .read _ virt n => ∃ a, virt = a + k.higherHalf ∧ ∀ i < n, k.Shown (a + i)
  | .entry _ rootSdt i =>
    ∃ a, rootSdt + 36 + i * 4 = a + k.higherHalf ∧ ∀ b < 4, k.Shown (a + b)
  | .mapPage _ => True
  | .uses _ _ => True
  | .noResponse => True
  | .log _ _ => True

/-- `setup_vmm` has left a page at the alias. -/
def KernelLayout.AliasMapped (k : KernelLayout) (v : Vmm σ) (root : BitVec 64) (a : Nat) : Prop :=
  (v.access root (BitVec.ofNat 64 (a + k.higherHalf))).isSome

/-- `kmain` between `setup_vmm` and `bootstrap_acpi`. -/
def beforeAcpi (A : FrameAllocator σ) (k : KernelLayout) (pl : Platform) (root : BitVec 64)
    (v : Vmm σ) (bytes : Mem) : Except Fault (Heap σ) := do
  let h ← setupHeap A k.higherHalf (Heap.initial v root bytes)
  let (p, h) ← kmalloc A h 6144
  let h ← kfree h p
  bootstrapApic A k.higherHalf pl h

variable {σ : Type} {A : FrameAllocator σ} {h h' : Heap σ} {k : KernelLayout} {M : PageMap}
  {ram : Mem} {g : Nat → Prop} {pl : Platform} {v v' : Vmm σ} {root : BitVec 64}

theorem boot_eq (stack : RedirectionEntry) (v : Vmm σ) (bytes : Mem) :
    boot A k pl stack v bytes = (do
      let (root, v) ← setupVmm A k v
      let h ← beforeAcpi A k pl root v bytes
      let (acpi, h) ← bootstrapAcpi A k.higherHalf pl h
      let (redirections, h) ← setupIoApic A k.higherHalf pl stack acpi.madt h
      .ok ⟨acpi, redirections, h⟩) := by
  simp only [boot, beforeAcpi, bind_assoc]

theorem inMap_mapped {f : Bool × Heap σ → AcpiRun σ α} {P : Heap σ → Prop}
    (hf : ∀ h', AcpiRun.InMap ram (f (false, h')))
    (hnext : ∀ h', h.mapDirect A k.higherHalf a acpiFlags = .ok (true, h') →
      (AcpiRun.InMap ram (f (true, h')) ↔ P h')) :
    AcpiRun.InMap ram (AcpiRun.mapDirect A k.higherHalf h a >>= f) ↔
      ∀ h', h.mapDirect A k.higherHalf a acpiFlags = .ok (true, h') → P h' := by
  rw [AcpiRun.InMap, Traced.all_bind_of_all (inMap_mapDirect _ _) (AcpiRun.mapDirect_result ..),
    Prod.forall, Bool.forall_bool]
  refine (and_iff_right fun h' _ => hf h').trans ?_
  apply forall_congr'
  intro h'
  exact forall_congr' (hnext h')

theorem inMap_logIf (p : Bool) (level : AcpiLog) (msg : String) {f : Unit → AcpiRun σ α} :
    AcpiRun.InMap ram (AcpiRun.logIf p level msg >>= f) ↔ AcpiRun.InMap ram (f ()) := by
  have hlog : AcpiRun.InMap ram (AcpiRun.logIf (σ := σ) p level msg) := by
    cases p with
    | false => exact List.forall_mem_nil _
    | true => exact List.forall_mem_singleton.2 trivial
  exact (Traced.all_bind_of_all hlog rfl).trans ⟨fun h => h () rfl, fun h _ _ => h⟩

section Tables
variable (hal : h.Aliases A k g) (hk : k.Regular) (hp : HhdmPlaced k.higherHalf)
include hal hk hp

theorem inMap_checkRsdp {f : Nat → AcpiRun σ α} {P : Prop} (hs : ∀ i < 20, k.Shown (a + i))
    (hnext : AcpiRun.InMap ram (f (load ram (a + 16) 4)) ↔ P) :
    AcpiRun.InMap ram (AcpiRun.checkRsdp A ram h (a + k.higherHalf) >>= f) ↔
      Covers g a 20 ∧ (RsdpAccepted ram a → P) := by
  have hread : AcpiRun.InMap ram (AcpiRun.checkRsdp A ram h (a + k.higherHalf)) ↔
      Covers g a 20 := by
    refine Iff.trans ?_ (and_iff_left trivial)
    apply Traced.all_bind_of_ok (inMap_reads hal hs) (hal.reads_ok ram hs)
    intro _
    dsimp only
    split
    · refine (inMap_signaturePanic hal hk hp _ _ _ (P := True) fun now _ => ?_).trans ?_
      · exact iff_of_true (List.forall_mem_nil _) trivial
      · exact iff_of_true (fun _ _ => trivial) trivial
    refine iff_of_true (Traced.all_emit_bind.2 ⟨trivial, (inMap_logIf _ _ _).2 ?_⟩) trivial
    split
    · exact Traced.all_call _ _
    · exact Traced.all_pure _ _
  refine Traced.all_bind.trans ((and_congr_left' hread).trans (and_congr_right fun hc => ?_))
  rw [AcpiRun.checkRsdp_result]
  have hok : (∃ x, checkRsdp A ram h (a + k.higherHalf) = .ok x) ↔ _ := hal.checkRsdp_iff hk hs
  rw [and_iff_right (hal.reads_ok ram hs hc)] at hok
  obtain ⟨M, hd, _⟩ := hal
  rw [← hok, ← hnext]
  constructor
  · rintro hall ⟨x, hx⟩
    rw [← hd.checkRsdp hk hs hx]
    exact hall x hx
  · intro hall x hx
    rw [hd.checkRsdp hk hs hx]
    exact hall ⟨x, hx⟩

variable (hv : 2 ^ 64 - 2 ^ 31 ≤ k.virtualBase)
include hv

theorem inMap_fadtFields (ha : a < 2 ^ 32) (b : Nat → α) : AcpiRun.InMap ram (do
      let facsPtr ← AcpiRun.facsPointer ram h (a + k.higherHalf)
      let _ ← AcpiRun.loadAt ram h (a + k.higherHalf + 40) 4
      pure (b facsPtr)) ↔ FieldsCovered ram g a := by
  have hs : ∀ o n, o + n ≤ 256 → ∀ i < n, k.Shown (a + o + i) := fun o n ho i hi =>
    shown_of_lt hp hv (by omega)
  have hload : ∀ {β : Type} {f : Nat → AcpiRun σ β} {P : Prop} (o n : Nat), o + n ≤ 256 →
      (Covers g (a + o) n → (AcpiRun.InMap ram (f (load ram (a + o) n)) ↔ P)) →
      (AcpiRun.InMap ram (AcpiRun.loadAt ram h (a + k.higherHalf + o) n >>= f) ↔
        Covers g (a + o) n ∧ P) := by
    intro β f P o n ho hf
    rw [Nat.add_right_comm]
    exact Traced.all_bind_of_ok (inMap_loadAt hal (hs o n ho)) (hal.loadAt_ok hk (hs o n ho)) hf
  rw [AcpiRun.facsPointer, bind_assoc, AcpiRun.InMap, Traced.all_emit_bind, bind_assoc]
  refine (and_iff_right trivial).trans (hload 48 4 (by decide) fun _ => ?_)
  rw [bind_assoc]
  refine (inMap_logIf _ _ _).trans ?_
  rw [bind_assoc]
  refine hload 36 4 (by decide) fun _ => ?_
  have hlast : ∀ x, AcpiRun.InMap ram (AcpiRun.loadAt ram h (a + k.higherHalf + 40) 4 >>= fun _ =>
      pure (b x)) ↔ Covers g (a + 40) 4 := by
    intro x
    refine Iff.trans ?_ (and_iff_left trivial)
    exact hload 40 4 (by decide) fun _ => iff_of_true (Traced.all_pure _ (b x)) trivial
  by_cases hctrl : load ram (a + 36) 4 = 0
  · rw [if_neg (not_not.2 hctrl), bind_assoc, forall_prop_of_true hctrl]
    refine hload 132 8 (by decide) fun _ => ?_
    by_cases hx : load ram (a + 132) 8 = 0
    · rw [if_neg (not_not.2 hx)]
      exact iff_of_true (List.forall_mem_nil _) fun hno => hno.elim (absurd hctrl) (absurd hx)
    · rw [if_pos hx, bind_assoc, AcpiRun.InMap, Traced.all_emit_bind, pure_bind,
        forall_prop_of_true (.inr hx)]
      exact (and_iff_right trivial).trans (hlast _)
  · rw [if_pos hctrl, pure_bind]
    have hfields : (load ram (a + 36) 4 = 0 → Covers g (a + 132) 8) := fun hno => absurd hno hctrl
    have hnext : load ram (a + 36) 4 ≠ 0 ∨ load ram (a + 132) 8 ≠ 0 := .inl hctrl
    rw [and_iff_right hfields, forall_prop_of_true hnext]
    exact hlast _

theorem inMap_checked {f : Unit → AcpiRun σ α} {P : Prop} (ha : a < 2 ^ 32)
    (hsig : HasSignature ram signature a)
    (hnext : TableCovered ram g a → ValidSdt ram signature a → (AcpiRun.InMap ram (f ()) ↔ P)) :
    AcpiRun.InMap ram (AcpiRun.checksumAt ram h (a + k.higherHalf) >>= f) ↔
      TableCovered ram g a ∧ (ValidSdt ram signature a → P) := by
  apply Traced.all_bind_check (inMap_checksum hal hk hp hv ha)
  · intro hc
    rw [AcpiRun.checksumAt_result, hal.checksum_ok_iff hk hp hv ha hc]
    exact ⟨fun hsum => ⟨hsig, hsum⟩, fun hvalid => hvalid.sum⟩
  · exact hnext

theorem inMap_parseRsdt (hrsdt : rsdt < 2 ^ 32) (lastType : BitVec 8) :
    AcpiRun.InMap ram (AcpiRun.parseRsdt A ram k.higherHalf lastType h rsdt) ↔
      ∀ h', h.mapDirect A k.higherHalf rsdt acpiFlags = .ok (true, h') →
        FromRsdt A ram k.higherHalf (withPage g true rsdt) h' rsdt := by
  have hroom := hp.room
  have hu := hk.hhdmUpper
  have hvirt : u64 (rsdt + k.higherHalf) = rsdt + k.higherHalf := u64_of_lt (by omega)
  have hnull : ∀ t, t + k.higherHalf ≠ 0 := by omega
  rw [AcpiRun.parseRsdt, hvirt]
  apply inMap_mapped
  · exact fun _ => Traced.all_call _ _
  intro h₁ hmap
  have hal₁ := hal.mapDirect hk hp (shown_of_lt hp hv (by omega)) (by decide) hmap
  dsimp only
  rw [if_neg (by decide), FromRsdt]
  apply Traced.all_bind_check (inMap_checkHeader hal₁ hk hp hv hrsdt "RSDT")
  · intro hc
    rw [AcpiRun.checkHeaderSignature_result]
    exact hal₁.checkHeader_ok_iff hk hp hv hrsdt hc.1
  intro _ hsig
  apply inMap_checked hal₁ hk hp hv hrsdt hsig
  intro hc _
  apply inMap_findTable hal₁ hk hp hv hrsdt hc.1
  · intro h'
    exact Traced.all_call _ _
  intro g₂ h₂ madt hsub hal₂ hlt hmadt
  dsimp only
  rw [if_neg (hnull madt), FromMadt]
  apply inMap_checked hal₂ hk hp hv hlt hmadt
  intro hcmadt _
  apply inMap_parseMadtAt hal₂ hk hp hv hlt hcmadt
  intro w h₃ hal₃
  apply inMap_findTable hal₃ hk hp hv hrsdt fun i hi => hsub _ (hc.1 i hi)
  · intro h'
    exact Traced.all_call _ _
  intro g₄ h₄ fadt _ hal₄ hlt' hfadt
  dsimp only
  rw [if_neg (hnull fadt), FromFadt]
  apply inMap_checked hal₄ hk hp hv hlt' hfadt
  intro _ _
  exact inMap_fadtFields hal₄ hk hp hv hlt' fun facsPtr =>
    (AcpiVars.mk w (fadt + k.higherHalf) facsPtr, h₄)

end Tables

/-- From any kernel whose mapped aliases are those of `g`. -/
theorem Heap.Aliases.reads_iff (hal : h.Aliases A k g) (hk : k.Regular)
    (hp : HhdmPlaced k.higherHalf) (hv : 2 ^ 64 - 2 ^ 31 ≤ k.virtualBase)
    (hs : ∀ a, pl.rsdp = some a → ∀ i < 20, k.Shown (a + i)) :
    (∀ e ∈ (AcpiRun.bootstrapAcpi A k.higherHalf pl h).events, e.Mapped pl.ram) ↔
      TablesCovered A pl.ram k.higherHalf pl.rsdp g h := by
  rw [AcpiRun.bootstrapAcpi, TablesCovered]
  cases hget : getRsdp pl.rsdp with
  | none =>
    refine iff_of_true ?_ fun _ hno => (Option.some_ne_none _ hno.symm).elim
    exact List.forall_mem_cons.2 ⟨trivial, List.forall_mem_singleton.2 trivial⟩
  | some rsdp =>
    have hs' := hs rsdp (getRsdp_some hget)
    have hfirst : k.Shown rsdp := hs' 0 (by decide)
    dsimp only
    rw [u64_of_lt hfirst.lt]
    simp only [Option.some.injEq, forall_eq']
    apply inMap_mapped
    · exact fun _ => Traced.all_emit_bind.2 ⟨trivial, Traced.all_pure _ _⟩
    intro h₁ hmap
    have hal₁ := hal.mapDirect hk hp hfirst (by decide) hmap
    dsimp only
    rw [if_neg (by decide), FromRsdp]
    apply inMap_checkRsdp hal₁ hk hp hs'
    exact inMap_parseRsdt hal₁ hk hp hv (load_lt pl.ram _ 4) pl.lastType

/-- `bootstrap_acpi` reads physical memory and nothing else. -/
theorem Heap.Aliases.reads_throughAlias (hal : h.Aliases A k g) (hk : k.Regular)
    (hp : HhdmPlaced k.higherHalf) (hv : 2 ^ 64 - 2 ^ 31 ≤ k.virtualBase)
    (hs : ∀ a, pl.rsdp = some a → ∀ i < 20, k.Shown (a + i)) :
    ∀ e ∈ (AcpiRun.bootstrapAcpi A k.higherHalf pl h).events, e.ThroughAlias k := by
  cases hget : getRsdp pl.rsdp with
  | none =>
    rw [AcpiRun.bootstrapAcpi, hget]
    exact List.forall_mem_cons.2 ⟨trivial, List.forall_mem_singleton.2 trivial⟩
  | some rsdp =>
    have htracks := tracks_bootstrapAcpi (U := fun _ _ => True) hal hk hp hv usesChecked_all hget
      (hs rsdp (getRsdp_some hget)) fun _ _ _ _ => trivial
    have hall := htracks.along.mono (Q := fun _ e => e.ThroughAlias k) ?_
    · exact (Traced.along_const _ _).1 hall
    intro g' e he
    cases e with
    | read => exact he.2
    | entry => exact he.2
    | mapPage => trivial
    | uses => trivial
    | noResponse => trivial
    | log => trivial

theorem Vmm.Maps.aliasMapped (hM : v.Maps A root M) :
    k.AliasMapped v root a ↔ M (k.directPage a) ≠ none := by
  rw [KernelLayout.AliasMapped, hM.access, Option.isSome_map, ← KernelLayout.directPage,
    Option.isSome_iff_ne_none]

section Boot
variable {s : σ} {mem : BitVec 64 → Fin 512 → BitVec 64} (hk : k.Regular)
  (hp : HhdmPlaced k.higherHalf) (hfb : k.FramebufferPlaced)
  (hvmm : setupVmm A k ⟨mem, s, []⟩ = .ok (root, v))
include hk hp hfb hvmm

/-- When `bootstrap_acpi` is called, the aliases of `setup_vmm` and the page of the local APIC are
mapped. -/
theorem beforeAcpi_aliases (hapic : k.Shown pl.apicAddress)
    (h₀ : beforeAcpi A k pl root v bytes = .ok h) :
    h.Aliases A k fun a => k.AliasMapped v root a ∨ pageOf a = pageOf pl.apicAddress := by
  obtain ⟨M, hM, hid, _⟩ := setupVmm_direct hk hfb hvmm
  obtain ⟨h₁, hheap, h₀⟩ := bind_ok h₀
  obtain ⟨⟨p, h₂⟩, hmalloc, h₀⟩ := bind_ok h₀
  obtain ⟨h₃, hfree, h₀⟩ := bind_ok h₀
  obtain ⟨apic, hget, h₀⟩ := bind_ok h₀
  obtain ⟨⟨mapped, h₄⟩, hmap, h₀⟩ := bind_ok h₀
  obtain ⟨M₁, hM₁, hsame⟩ := setupHeap_same hk hp hM hid hheap
  have hal₁ : h₁.Aliases A k (k.AliasMapped v root) := by
    refine ⟨M₁, hM₁, fun a hs => ?_⟩
    rw [hsame a hs, hM.aliasMapped]
  have hal₂ := hal₁.kept hk hp (kmalloc_keepsBacked hmalloc)
  have hal₃ := hal₂.kept hk hp (kfree_keepsBacked hfree)
  rw [getApic_address hget, ← Platform.apicAddress] at hmap
  have hal₄ := hal₃.mapDirect hk hp hapic (by decide) hmap
  dsimp only at h₀
  split at h₀
  · cases h₀
  next hmapped =>
  rw [if_pos (Bool.not_eq_false _ ▸ hmapped)] at hal₄
  split at h₀
  · cases h₀
  split at h₀
  · cases h₀
  cases h₀
  exact hal₄

/-- In every boot, all bytes that `bootstrap_acpi` reads are mapped when it reads them if and only
if the tables that it comes to lie on pages that `setup_vmm` mapped, on the page of the local APIC,
or on the pages of their first bytes as far as these were mapped before. -/
theorem bootstrapAcpi_mapped_iff (hv : 2 ^ 64 - 2 ^ 31 ≤ k.virtualBase)
    (hrsdp : ∀ a, pl.rsdp = some a → ∀ i < 20, k.Shown (a + i)) (hapic : k.Shown pl.apicAddress)
    (h₀ : beforeAcpi A k pl root v bytes = .ok h) :
    (∀ e ∈ (AcpiRun.bootstrapAcpi A k.higherHalf pl h).events, e.Mapped pl.ram) ↔
      TablesCovered A pl.ram k.higherHalf pl.rsdp
        (fun a => k.AliasMapped v root a ∨ pageOf a = pageOf pl.apicAddress) h :=
  (beforeAcpi_aliases hk hp hfb hvmm hapic h₀).reads_iff hk hp hv hrsdp

end Boot

theorem KernelLayout.Shown.page (hs : k.Shown a) : k.Shown (pageOf a) := by
  have hlt := hs.lt
  have hle := pageOf_le a
  have hclear := hs.clear
  refine ⟨by omega, ?_, ?_⟩
  · rw [pageOf_of_dvd (pageOf_dvd a)]
    exact hs.apart
  · simp only [pageOf, pageSize, maxPages] at *
    omega

theorem setupVmm_aliases (hk : k.Regular) (hfb : k.FramebufferPlaced)
    (h₀ : setupVmm A k ⟨mem, s, []⟩ = .ok (root, v)) (hs : k.Shown a) :
    ((∃ c ∈ k.chunks, c.Page (pageOf a)) → k.AliasMapped v root a) ∧
      (k.AliasMapped v root a → (∃ c ∈ k.chunks, c.Page (pageOf a)) ∨
        ∃ i < k.fbPages, pageOf a = pageOf (k.fbAddress - k.higherHalf + i * pageSize)) := by
  constructor
  · rintro ⟨c, hc, hp⟩
    obtain ⟨M, hM, _, hset⟩ := setupVmm_direct hk hfb h₀
    obtain ⟨flags, he, _⟩ := hset c hc _ hp
    have hpage : k.directPage a = k.directPage (pageOf a) := by
      rw [directPage_eq_iff hk hs.lt hs.page.lt, pageOf_of_dvd (pageOf_dvd a)]
    rw [hM.aliasMapped, hpage, he]
    exact Option.some_ne_none _
  · intro hm
    obtain ⟨M, hM, honly⟩ := setupVmm_only hk hfb h₀
    exact honly a hs (hM.aliasMapped.1 hm)

theorem wideLayout_beforeAcpi (t : Nat) : ∃ (x : OwnedPmm oneChunk) (root : BitVec 64)
    (v : Vmm (OwnedPmm oneChunk)) (h : Heap (OwnedPmm oneChunk)),
    setupVmm (pmmFrames oneChunk_sound) wideLayout ⟨fun _ _ => 0, x, []⟩ = .ok (root, v) ∧
    (∀ rsdp, beforeAcpi (pmmFrames oneChunk_sound) wideLayout { tablesAt t with rsdp := rsdp } root
      v (fun _ => 0) = .ok h) ∧
    h.Ready (pmmFrames oneChunk_sound) wideLayout (fun _ => False) (256 * pageSize) 15 := by
  obtain ⟨x, _, hl⟩ := oneChunk_frames
  obtain ⟨root, v, hv, hleft⟩ := wideLayout_setup hl fun _ _ => 0
  obtain ⟨h₀, p, h₁, h₂, hheap, hmalloc, hfree, hr⟩ := setupHeap_ready wideLayout_regular
    wideLayout_placed wideLayout_framebuffer hv hleft fun _ => 0
  obtain ⟨h, hapic, hr'⟩ := hr.bootstrapApic_ok wideLayout_regular wideLayout_placed (n := 15)
    (tablesAt_apicBoots t) (tablesAt_apicShown t)
  refine ⟨x, root, v, h, hv, fun rsdp => ?_, hr'⟩
  refine (bind_of_ok hheap _).trans ?_
  refine (bind_of_ok hmalloc _).trans ?_
  exact (bind_of_ok hfree _).trans hapic

theorem bootstrapAcpi_mapped_iff_tablePage : ∃ (x : OwnedPmm oneChunk) (root : BitVec 64)
    (v : Vmm (OwnedPmm oneChunk)) (h : Heap (OwnedPmm oneChunk)),
    setupVmm (pmmFrames oneChunk_sound) wideLayout ⟨fun _ _ => 0, x, []⟩ = .ok (root, v) ∧
    ((∀ e ∈ (AcpiRun.bootstrapAcpi (pmmFrames oneChunk_sound) wideLayout.higherHalf
        (tablesAt 0x11000000) h).events, e.Mapped (tablesAt 0x11000000).ram) ↔
      TablesCovered (pmmFrames oneChunk_sound) (tablesAt 0x11000000).ram wideLayout.higherHalf
        (some 0x11000000) (fun a => wideLayout.AliasMapped v root a ∨
          pageOf a = pageOf (tablesAt 0x11000000).apicAddress) h) := by
  obtain ⟨x, root, v, h, hv, hbefore, _⟩ := wideLayout_beforeAcpi 0x11000000
  exact ⟨x, root, v, h, hv, bootstrapAcpi_mapped_iff wideLayout_regular wideLayout_placed
    wideLayout_framebuffer hv (by decide) (tablesAt_rsdpShown (by decide))
    (tablesAt_apicShown 0x11000000) (hbefore (some 0x11000000))⟩

/-- A machine whose RSDP, 16 bytes before the end of a page, is outside the memory of its only
chunk. -/
def crossingRsdp : Platform := { tablesAt 0x11000000 with rsdp := some 0x11000ff0 }

theorem crossingRsdp_behind {v : Vmm (OwnedPmm oneChunk)} {x : OwnedPmm oneChunk}
    (hv : setupVmm (pmmFrames oneChunk_sound) wideLayout ⟨fun _ _ => 0, x, []⟩ = .ok (root, v)) :
    ¬wideLayout.AliasMapped v root 0x11001000 := by
  intro hm
  have hshown : wideLayout.Shown 0x11001000 := wideLayout_shown (by decide)
  obtain ⟨_, honly⟩ := setupVmm_aliases wideLayout_regular wideLayout_framebuffer hv hshown
  rcases honly hm with ⟨c, hc, hp⟩ | ⟨i, _, he⟩
  · obtain rfl : c = ⟨0x1000000, 0x11000000⟩ := List.mem_singleton.1 hc
    have htop : 0x11001000 < 0x11000000 := hp.top
    omega
  · have hbase : wideLayout.fbAddress - wideLayout.higherHalf = 0xfd000000 := by decide
    rw [hbase] at he
    simp only [pageOf, pageSize] at he
    omega

/-- Its last four bytes are on the next page, which is not mapped. -/
theorem crossingRsdp_unmapped : ∃ (x : OwnedPmm oneChunk) (root : BitVec 64)
    (v : Vmm (OwnedPmm oneChunk)) (h : Heap (OwnedPmm oneChunk)),
    setupVmm (pmmFrames oneChunk_sound) wideLayout ⟨fun _ _ => 0, x, []⟩ = .ok (root, v) ∧
    beforeAcpi (pmmFrames oneChunk_sound) wideLayout crossingRsdp root v (fun _ => 0) = .ok h ∧
    ¬∀ e ∈ (AcpiRun.bootstrapAcpi (pmmFrames oneChunk_sound) wideLayout.higherHalf crossingRsdp
      h).events, e.Mapped crossingRsdp.ram := by
  obtain ⟨x, root, v, h, hv, hbefore, hr⟩ := wideLayout_beforeAcpi 0x11000000
  refine ⟨x, root, v, h, hv, hbefore _, fun hall => ?_⟩
  have hfirst : wideLayout.Shown 0x11000ff0 := wideLayout_shown (by decide)
  have hnext : wideLayout.Shown 0x11001000 := wideLayout_shown (by decide)
  have hal := beforeAcpi_aliases wideLayout_regular wideLayout_placed wideLayout_framebuffer hv
    (tablesAt_apicShown 0x11000000) (hbefore (some 0x11000ff0))
  obtain ⟨h₁, hmap, _⟩ := hr.mapDirect wideLayout_regular wideLayout_placed (n := 12) hfirst
    (show pteGetAddr acpiFlags = 0 by decide)
  have hget : getRsdp crossingRsdp.rsdp = some 0x11000ff0 := rfl
  have hfirstRead := mem_bootstrapAcpi hget hfirst.lt hmap
    (Traced.mem_bind.2 (.inl (List.mem_singleton_self _)))
  have hread := hall _ hfirstRead 16 (by decide)
  obtain ⟨M, hd, hg⟩ := hal.mapDirect wideLayout_regular wideLayout_placed hfirst
    (show pteGetAddr acpiFlags = 0 by decide) hmap
  have hbyte : (h₁.shows crossingRsdp.ram (0x11001000 + wideLayout.higherHalf)).isSome := hread
  rcases (hg _ hnext).1 (hd.shows_iff.1 hbyte) with (hm | hapic) | hsame
  · exact crossingRsdp_behind hv hm
  · rw [tablesAt_apicAddress] at hapic
    exact absurd hapic (by decide)
  · exact absurd hsame (by decide)

end AdaOS
