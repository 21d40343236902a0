import AdaOS.AcpiReads
import AdaOS.MadtWindows

namespace AdaOS
set_option autoImplicit true
open ByteMem

section Conditions
variable {σ : Type} (A : FrameAllocator σ)

/-- `map_page` of one table after the other, whatever it returns. -/
def mapTables (higherHalf : Nat) : List Nat → Heap σ → Except Fault (Heap σ)
  | [], h => .ok h
  | a :: l, h => do
    let (_, h) ← h.mapDirect A higherHalf a acpiFlags
    mapTables higherHalf l h

/-- The MADT and the state that `parse_madt` starts from; there is none if the RSDP cannot be
mapped in the state before `bootstrap_acpi`. -/
def Platform.beforeMadt (higherHalf : Nat) (pl : Platform) (h : Heap σ) :
    Option (Nat × Heap σ) :=
  match getRsdp pl.rsdp with
  | none => none
  | some rsdp =>
    match h.mapDirect A higherHalf rsdp acpiFlags with
    | .ok (true, _) => do
      let rsdt := load pl.ram (rsdp + 16) 4
      let tables := visited pl.ram rsdt "APIC" 0 (rsdtEntries pl.ram rsdt)
      let madt ← foundTable pl.ram rsdt "APIC"
      let h ← (mapTables A higherHalf (rsdp :: rsdt :: tables) h).toOption
      some (madt, h)
    | _ => none

/-- The frames that the heap takes for the arrays of `parse_madt`. -/
def arraysFrames (size : Nat) : List MadtArray → Heap σ → List (Nat × BitVec 64)
  | [], _ => []
  | _ :: l, h =>
    kmallocFrames A h size ++
      match kmalloc A h size with
      | .ok (_, h) => arraysFrames size l h
      | .error _ => []

/-- The frames that the heap takes for its pages from `setup_heap` on, by the address space of
`setup_vmm` and the state before `bootstrap_acpi`. -/
def bootFrames (k : KernelLayout) (pl : Platform) (root : BitVec 64) (v : Vmm σ) (bytes : Mem)
    (h : Heap σ) : List (Nat × BitVec 64) :=
  setupFrames A k.higherHalf (Heap.initial v root bytes) ++
    (match setupHeap A k.higherHalf (Heap.initial v root bytes) with
    | .ok h => kmallocFrames A h 6144
    | .error _ => []) ++
    match pl.beforeMadt A k.higherHalf h with
    | some (madt, h) => arraysFrames A (load pl.ram (madt + 4) 4) madtArrays h
    | none => []

/-- A table lies on the page and is mapped there, and no IO APIC is mapped over it. -/
def Platform.TableOn (k : KernelLayout) (pl : Platform) (h : Heap σ) (p : Nat) : Prop :=
  ∃ madt h₁ arrays h₂, pl.beforeMadt A k.higherHalf h = some (madt, h₁) ∧
    kmallocArrays A (load pl.ram (madt + 4) 4) madtArrays (fun _ => 0) h₁ = .ok (arrays, h₂) ∧
    (∃ t ∈ pl.tables, pageOf t = p) ∧
    ∀ a ∈ ioApicAddresses (fun i => pl.ram (madt + i)) (oldEntries h₂.bytes arrays .ioApics),
      pageOf a ≠ p

end Conditions

/-- The alias of the page is a page of the heap, and the last frame it got is another page. -/
def HeapOn (frames : List (Nat × BitVec 64)) (p : Nat) : Prop :=
  ∃ i < maxPages, p = 0x10000000000 + i * pageSize ∧
    ∃ f, lastFrame i frames = some f ∧ f ≠ BitVec.ofNat 64 p

variable {σ : Type} {A : FrameAllocator σ} {h h' : Heap σ} {k : KernelLayout} {M : PageMap}
  {ram : Mem} {pl : Platform} {b : Booted σ}

theorem mapTables_cons (h₀ : h.mapDirect A higherHalf a acpiFlags = .ok (r, h')) :
    mapTables A higherHalf (a :: l) h = mapTables A higherHalf l h' := bind_of_ok h₀ _

theorem visited_lt : ∀ t ∈ visited ram rsdt signature i n, t < 2 ^ 32 := by
  induction n generalizing i with
  | zero => exact List.forall_mem_nil _
  | succ n ih =>
    have hlt : rsdtEntry ram rsdt i < 2 ^ 32 := load_lt ram _ 4
    rw [visited]
    split
    · exact List.forall_mem_singleton.2 hlt
    · exact List.forall_mem_cons.2 ⟨hlt, ih⟩

theorem foundTable_lt (h₀ : foundTable ram rsdt signature = some t) : t < 2 ^ 32 := by
  obtain ⟨i, _, rfl⟩ := List.mem_map.1 (List.mem_of_find?_eq_some h₀)
  exact load_lt ram _ 4

theorem Platform.tables_shown (hp : HhdmPlaced k.higherHalf) (hv : 2 ^ 64 - 2 ^ 31 ≤ k.virtualBase)
    (hrsdp : ∀ a, pl.rsdp = some a → ∀ i < 20, k.Shown (a + i)) :
    ∀ t ∈ pl.tables, k.Shown t := by
  have hlow : ∀ {t}, t < 2 ^ 32 → k.Shown t := fun ht => shown_of_lt hp hv (by omega)
  rw [Platform.tables]
  cases hget : getRsdp pl.rsdp with
  | none => exact List.forall_mem_nil _
  | some rsdp =>
    refine List.forall_mem_cons.2 ⟨hrsdp rsdp (getRsdp_some hget) 0 (by decide),
      List.forall_mem_cons.2 ⟨hlow (load_lt pl.ram _ 4), List.forall_mem_append.2 ⟨?_, ?_⟩⟩⟩
    · exact fun t ht => hlow (visited_lt t ht)
    · exact fun t ht => hlow (visited_lt t ht)

theorem Platform.beforeMadt_failed {rsdp : Nat} (hget : getRsdp pl.rsdp = some rsdp)
    (hmap : h.mapDirect A higherHalf rsdp acpiFlags = .ok (false, h₁)) :
    pl.beforeMadt A higherHalf h = none := by
  rw [Platform.beforeMadt, hget]
  dsimp only
  rw [hmap]

theorem Platform.beforeMadt_eq {rsdp : Nat} (hget : getRsdp pl.rsdp = some rsdp)
    (hmap : h.mapDirect A higherHalf rsdp acpiFlags = .ok (true, h₁))
    (hfound : foundTable pl.ram (load pl.ram (rsdp + 16) 4) "APIC" = some madt)
    (hmaps : mapTables A higherHalf (load pl.ram (rsdp + 16) 4 ::
      visited pl.ram (load pl.ram (rsdp + 16) 4) "APIC" 0
        (rsdtEntries pl.ram (load pl.ram (rsdp + 16) 4))) h₁ = .ok h₂) :
    pl.beforeMadt A higherHalf h = some (madt, h₂) := by
  rw [Platform.beforeMadt, hget]
  dsimp only
  rw [hmap]
  dsimp only
  rw [hfound, mapTables_cons hmap, hmaps]
  rfl

section Direct
variable (hd : h.Direct A k M) (hk : k.Regular) (hp : HhdmPlaced k.higherHalf)
include hd hk hp

theorem Heap.Direct.mapTables (hs : ∀ a ∈ l, k.Shown a)
    (h₀ : mapTables A k.higherHalf l h = .ok h') :
    ∃ M', h'.Direct A k M' ∧ Remapped k (readOnly l) [] M M' := by
  induction l generalizing h M with
  | nil =>
    cases h₀
    exact ⟨M, hd, .refl⟩
  | cons a l ih =>
    obtain ⟨ha, hl⟩ := List.forall_mem_cons.1 hs
    obtain ⟨⟨_, g⟩, hmap, h₀⟩ := bind_ok h₀
    obtain ⟨M₁, hM₁, hover₁, _⟩ := hd.mapDirect_remapped hk hp ha (by decide) hmap
    obtain ⟨M', hM', hover⟩ := ih hM₁ hl h₀
    rw [readOnly_cons]
    exact ⟨M', hM', hover₁.trans hover⟩

theorem Heap.Direct.kmallocArrays
    (h₀ : kmallocArrays A size l arrays h = .ok (arrays', h')) :
    ∃ M', h'.Direct A k M' ∧ Remapped k [] (arraysFrames A size l h) M M' := by
  induction l generalizing arrays h M with
  | nil =>
    cases h₀
    exact ⟨M, hd, .refl⟩
  | cons a l ih =>
    obtain ⟨⟨p, g⟩, hmalloc, h₀⟩ := bind_ok h₀
    obtain ⟨M₁, hM₁, hover₁⟩ :=
      hd.regrown hk hp (kmalloc_keepsBacked hmalloc) (kmalloc_regrows hmalloc)
    obtain ⟨M', hM', hover⟩ := ih hM₁ h₀
    rw [arraysFrames, hmalloc]
    exact ⟨M', hM', hover₁.trans hover⟩

variable (hv : 2 ^ 64 - 2 ^ 31 ≤ k.virtualBase)
include hv

/-- The search maps the tables it visits. -/
theorem Heap.Direct.findEntry_maps (hrsdt : rsdt + 36 + (i + n) * 4 ≤ 0x10000000000)
    (h₀ : findEntry A ram k.higherHalf (rsdt + k.higherHalf) signature i n h = .ok (r, h')) :
    AdaOS.mapTables A k.higherHalf (visited ram rsdt signature i n) h = .ok h' := by
  induction n generalizing i h M with
  | zero =>
    cases h₀
    rfl
  | succ n ih =>
    obtain ⟨phys, hload, h₀⟩ := bind_ok h₀
    obtain ⟨⟨mapped, g⟩, hmap, h₀⟩ := bind_ok h₀
    obtain ⟨c, hcmp, h₀⟩ := bind_ok h₀
    have haddr : rsdt + k.higherHalf + 36 + i * 4 = rsdt + 36 + i * 4 + k.higherHalf := by omega
    rw [haddr] at hload
    have hphys : phys = rsdtEntry ram rsdt i :=
      hd.loadAt hk (fun j hj => shown_of_lt hp hv (by omega)) hload
    have hlt : phys < 2 ^ 32 := hphys ▸ load_lt ram _ 4
    have hroom := hp.room
    have hvert : u64 (phys + k.higherHalf) = phys + k.higherHalf := u64_of_lt (by omega)
    obtain ⟨M₁, hM₁, _⟩ :=
      hd.mapDirect_remapped hk hp (shown_of_lt hp hv (by omega)) (by decide) hmap
    rw [hvert] at hcmp h₀
    have hc := hM₁.memcmpAt hk (fun j hj => shown_of_lt hp hv (by omega)) hcmp
    rw [visited, ← hphys, memcmp, ← hc]
    split at h₀
    · next hzero =>
      cases h₀
      rw [if_pos hzero]
      exact mapTables_cons hmap
    · next hnonzero =>
      rw [if_neg hnonzero]
      exact (mapTables_cons hmap).trans (ih hM₁ (by omega) h₀)

theorem Heap.Direct.findTable_maps (hrsdt : rsdt < 2 ^ 32)
    (h₀ : findTable A ram k.higherHalf h (rsdt + k.higherHalf) signature = .ok (r, h')) :
    AdaOS.mapTables A k.higherHalf (visited ram rsdt signature 0 (rsdtEntries ram rsdt)) h =
      .ok h' := by
  obtain ⟨length, hload, h₀⟩ := bind_ok h₀
  rw [Nat.add_right_comm] at hload
  have hlength := hd.loadAt hk (fun j hj => shown_of_lt hp hv (by omega)) hload
  have hentries : rsdtEntries ram rsdt < 2 ^ 32 := Nat.mod_lt _ (by decide)
  rw [hlength, ← rsdtEntries] at h₀
  exact hd.findEntry_maps hk hp hv (by omega) h₀

theorem Heap.Direct.allocArrays_eq (ha : a < 2 ^ 32)
    (h₀ : allocArrays A ram (a + k.higherHalf) l arrays h = .ok (arrays', h')) :
    AdaOS.kmallocArrays A (load ram (a + 4) 4) l arrays h = .ok (arrays', h') := by
  induction l generalizing arrays h M with
  | nil => exact h₀
  | cons b l ih =>
    obtain ⟨length, hload, h₀⟩ := bind_ok h₀
    obtain ⟨⟨p, g⟩, hmalloc, h₀⟩ := bind_ok h₀
    rw [Nat.add_right_comm] at hload
    rw [hd.loadAt hk (fun j hj => shown_of_lt hp hv (by omega)) hload] at hmalloc
    obtain ⟨M₁, hM₁, _⟩ := hd.kept hk hp (kmalloc_keepsBacked hmalloc)
    exact (bind_of_ok hmalloc _).trans (ih hM₁ h₀)

omit hp hv in
/-- A record that can be taken is seen as it is. -/
theorem Heap.Direct.view_record (hs : ∀ i < 12, k.Shown (a + (o + i)))
    (hrec : ∀ x ∈ recordAccesses (h.view ram (a + k.higherHalf)) o i,
      h.Allows ram (a + k.higherHalf) arrays x) :
    h.view ram (a + k.higherHalf) o = ram (a + o) ∧
      h.view ram (a + k.higherHalf) (o + 1) = ram (a + (o + 1)) ∧
      (h.view ram (a + k.higherHalf) o = 1 →
        readBytes (h.view ram (a + k.higherHalf)) (o + 2) 10 =
          readBytes (fun i => ram (a + i)) (o + 2) 10) := by
  have hview : ∀ j < 12, (h.shows ram (a + k.higherHalf + (o + j))).isSome →
      h.view ram (a + k.higherHalf) (o + j) = ram (a + (o + j)) := by
    intro j hj hshown
    rw [Nat.add_right_comm] at hshown
    exact hd.view_of_mapped hk (hs j hj) (hd.shows_iff.1 hshown)
  have hheader : ∀ j < 2, (h.shows ram (a + k.higherHalf + o + j)).isSome := by
    apply hrec (.header o)
    rw [recordAccesses]
    split
    · exact List.mem_cons_of_mem _ (List.mem_cons_of_mem _ (List.mem_singleton_self _))
    · exact List.mem_cons_of_mem _ (List.mem_singleton_self _)
  simp only [Nat.add_assoc] at hheader hview
  refine ⟨hview 0 (by decide) (hheader 0 (by decide)), hview 1 (by decide) (hheader 1 (by decide)),
    fun hone => ?_⟩
  have hpayload : ∀ j < 10, (h.shows ram (a + k.higherHalf + o + 2 + j)).isSome := by
    apply hrec (.payload o .ioApics)
    rw [recordAccesses, madtArray_ioApics.2 hone]
    exact List.mem_cons_of_mem _ (List.mem_cons_self ..)
  apply List.map_congr_left
  intro j hj
  have hlt := List.mem_range.1 hj
  have hbyte := hpayload j hlt
  simp only [Nat.add_assoc] at hbyte ⊢
  exact hview (2 + j) (by omega) hbyte

/-- `parse_madt` finds the IO APICs that the bytes of the table say. -/
theorem Heap.Direct.parseMadt_windows (ha : a < 2 ^ 32)
    (hsum : checksumAt ram h (a + k.higherHalf) = .ok ())
    (h₀ : parseMadtAt A ram lastType h (a + k.higherHalf) = .ok (w, h')) :
    ∃ arrays, AdaOS.kmallocArrays A (load ram (a + 4) 4) madtArrays (fun _ => 0) h =
        .ok (arrays, h') ∧
      w.ioApicWindows =
        ioApicAddresses (fun i => ram (a + i)) (oldEntries h'.bytes arrays .ioApics) := by
  have hs : ∀ b < 2 ^ 33, k.Shown (a + b) := fun b hb => shown_of_lt hp hv (by omega)
  obtain ⟨hlength, _⟩ := hd.checksum_mapped hk hp hv ha hsum
  obtain ⟨⟨arrays, g⟩, halloc, h₀⟩ := bind_ok h₀
  have hmalloc := hd.allocArrays_eq hk hp hv ha halloc
  obtain ⟨M', hM', hover⟩ := hd.kmallocArrays hk hp hmalloc
  have hsize : sdtLength (g.view ram (a + k.higherHalf)) = sdtLength fun i => ram (a + i) := by
    rw [sdtLength_table]
    apply hM'.sdtLength_eq hk
    · exact fun i hi => shown_of_lt hp hv (by omega)
    · exact fun i hi => hover.aliases.ne_none (hlength i hi) (shown_of_lt hp hv (by omega))
  obtain ⟨_, _, h₀⟩ := bind_ok h₀
  dsimp only at h₀
  split at h₀
  · cases h₀
  next hgood =>
  obtain ⟨w', hw, h₀⟩ := bind_ok h₀
  cases h₀
  have hflags := ((parseMadt_ok_iff _ _ lastType).1 ⟨_, hw⟩).1
  have hrecords := ((parseMadt_accesses_iff _ _).1
    ⟨⟨_, hw⟩, not_not.1 fun hno => hgood ⟨hflags, hno⟩⟩).2
  refine ⟨arrays, hmalloc, ?_⟩
  rw [AdaOS.parseMadt_windows hw]
  apply ioApicAddresses_congr hsize
  intro o i hat
  have hlt : sdtLength (h'.view ram (a + k.higherHalf)) < 2 ^ 32 := load_lt _ 4 4
  have ho := hat.lt
  exact hM'.view_record hk (fun j hj => hs _ (by omega)) (hrecords o i hat).2

/-- `bootstrap_acpi` from the mapping of the RSDT on: it maps tables, lets the heap grow for the
arrays, and maps tables again. -/
theorem Heap.Direct.parseRsdt_steps (hrsdt : rsdt < 2 ^ 32)
    (h₀ : parseRsdt A ram k.higherHalf lastType h rsdt = .ok (g, h')) :
    ∃ madt h₁ arrays h₂, foundTable ram rsdt "APIC" = some madt ∧
      AdaOS.mapTables A k.higherHalf
        (rsdt :: visited ram rsdt "APIC" 0 (rsdtEntries ram rsdt)) h = .ok h₁ ∧
      AdaOS.kmallocArrays A (load ram (madt + 4) 4) madtArrays (fun _ => 0) h₁ =
        .ok (arrays, h₂) ∧
      AdaOS.mapTables A k.higherHalf (visited ram rsdt "FACP" 0 (rsdtEntries ram rsdt)) h₂ =
        .ok h' ∧
      g.madt.ioApicWindows =
        ioApicAddresses (fun i => ram (madt + i)) (oldEntries h₂.bytes arrays .ioApics) ∧
      g.fadt ≠ 0 := by
  have hroom := hp.room
  have hvirt : u64 (rsdt + k.higherHalf) = rsdt + k.higherHalf := u64_of_lt (by omega)
  have hlow : ∀ {t}, t < 2 ^ 32 → k.Shown t := fun ht => shown_of_lt hp hv (by omega)
  obtain ⟨⟨mapped, h₁⟩, hmap, h₀⟩ := bind_ok h₀
  dsimp only at h₀
  rw [hvirt] at h₀
  split at h₀
  · cases h₀
  obtain ⟨_, _, h₀⟩ := bind_ok h₀
  obtain ⟨_, _, h₀⟩ := bind_ok h₀
  obtain ⟨⟨madtHeader, h₂⟩, hapic, h₀⟩ := bind_ok h₀
  dsimp only at h₀
  split at h₀
  · cases h₀
  next hmadt =>
  obtain ⟨_, hsum, h₀⟩ := bind_ok h₀
  obtain ⟨⟨w, h₃⟩, hparse, h₀⟩ := bind_ok h₀
  obtain ⟨⟨fadtHeader, h₄⟩, hfacp, h₀⟩ := bind_ok h₀
  dsimp only at h₀
  split at h₀
  · cases h₀
  next hfadt =>
  obtain ⟨_, _, h₀⟩ := bind_ok h₀
  obtain ⟨_, _, h₀⟩ := bind_ok h₀
  obtain ⟨_, _, h₀⟩ := bind_ok h₀
  cases h₀
  obtain ⟨M₁, hM₁, _⟩ := hd.mapDirect_remapped hk hp (hlow hrsdt) (by decide) hmap
  have hmaps := hM₁.findTable_maps hk hp hv hrsdt hapic
  obtain ⟨M₂, hM₂, _⟩ := hM₁.mapTables hk hp (fun t ht => hlow (visited_lt t ht)) hmaps
  have hfound := hM₁.aliases.findTable_found hk hp hv hrsdt hapic
  cases hmadt' : foundTable ram rsdt "APIC" with
  | none =>
    rw [hmadt'] at hfound
    exact (hmadt hfound).elim
  | some madt =>
    rw [hmadt'] at hfound
    obtain rfl : madtHeader = madt + k.higherHalf := hfound
    have hlt : madt < 2 ^ 32 := foundTable_lt hmadt'
    obtain ⟨arrays, hmalloc, hwindows⟩ := hM₂.parseMadt_windows hk hp hv hlt hsum hparse
    obtain ⟨M₃, hM₃, _⟩ := hM₂.kmallocArrays hk hp hmalloc
    exact ⟨madt, h₂, arrays, h₃, rfl, (mapTables_cons hmap).trans hmaps, hmalloc,
      hM₃.findTable_maps hk hp hv hrsdt hfacp, hwindows, hfadt⟩

/-- What a call of `bootstrap_acpi` that returns has done to the address space. -/
theorem Heap.Direct.bootstrapAcpi_remapped
    (hrsdp : ∀ a, pl.rsdp = some a → ∀ i < 20, k.Shown (a + i))
    (h₀ : bootstrapAcpi A k.higherHalf pl h = .ok (g, h')) :
    ∃ M', h'.Direct A k M' ∧
      ((pl.beforeMadt A k.higherHalf h = none ∧ g.fadt = 0 ∧ Remapped k [] [] M M') ∨
        ∃ madt h₁ arrays h₂, pl.beforeMadt A k.higherHalf h = some (madt, h₁) ∧
          AdaOS.kmallocArrays A (load pl.ram (madt + 4) 4) madtArrays (fun _ => 0) h₁ =
            .ok (arrays, h₂) ∧
          g.madt.ioApicWindows = ioApicAddresses (fun i => pl.ram (madt + i))
            (oldEntries h₂.bytes arrays .ioApics) ∧ g.fadt ≠ 0 ∧
          Remapped k (readOnly pl.tables)
            (arraysFrames A (load pl.ram (madt + 4) 4) madtArrays h₁) M M') := by
  have hshown := pl.tables_shown hp hv hrsdp
  rw [Platform.tables] at hshown ⊢
  rw [AdaOS.bootstrapAcpi] at h₀
  cases hget : getRsdp pl.rsdp with
  | none =>
    rw [hget] at h₀
    cases h₀
  | some rsdp =>
    rw [hget] at h₀ hshown
    have hs := hrsdp rsdp (getRsdp_some hget)
    have hfirst : k.Shown rsdp := hs 0 (by decide)
    have hvirt : u64 (rsdp + k.higherHalf) = rsdp + k.higherHalf := u64_of_lt hfirst.lt
    obtain ⟨⟨mapped, h₁⟩, hmap, h₀⟩ := bind_ok h₀
    obtain ⟨M₁, hM₁, hover₁, hfail⟩ := hd.mapDirect_remapped hk hp hfirst (by decide) hmap
    dsimp only at h₀ hshown ⊢
    rw [hvirt] at h₀
    split at h₀
    · next hno =>
      cases h₀
      subst hno
      rw [hfail rfl] at hM₁
      exact ⟨M, hM₁, .inl ⟨pl.beforeMadt_failed hget hmap, rfl, .refl⟩⟩
    next hyes =>
    rw [Bool.not_eq_false] at hyes
    subst hyes
    obtain ⟨rsdt, hcheck, h₀⟩ := bind_ok h₀
    obtain rfl := hM₁.checkRsdp hk hs hcheck
    obtain ⟨madt, h₂, arrays, h₃, hfound, hmaps, hmalloc, hmaps', hwindows, hfadt⟩ :=
      hM₁.parseRsdt_steps hk hp hv (load_lt pl.ram _ 4) h₀
    obtain ⟨hshownFirst, hshownRest⟩ := List.forall_mem_cons.1 hshown
    obtain ⟨hshownRsdt, hshownRest⟩ := List.forall_mem_cons.1 hshownRest
    obtain ⟨hshownApic, hshownFacp⟩ := List.forall_mem_append.1 hshownRest
    obtain ⟨M₂, hM₂, hover₂⟩ :=
      hM₁.mapTables hk hp (List.forall_mem_cons.2 ⟨hshownRsdt, hshownApic⟩) hmaps
    obtain ⟨M₃, hM₃, hover₃⟩ := hM₂.kmallocArrays hk hp hmalloc
    obtain ⟨M', hM', hover₄⟩ := hM₃.mapTables hk hp hshownFacp hmaps'
    refine ⟨M', hM', .inr ⟨madt, h₂, arrays, h₃, pl.beforeMadt_eq hget hmap hfound hmaps, hmalloc,
      hwindows, hfadt, ?_⟩⟩
    have hover := hover₁.trans (hover₂.trans (hover₃.trans hover₄))
    rw [List.append_nil, readOnly_cons, List.nil_append, List.nil_append, List.nil_append,
      List.append_assoc] at hover
    rw [readOnly_cons, readOnly_cons, readOnly_append]
    exact hover

end Direct

theorem Platform.tableOn_iff (hsome : pl.beforeMadt A k.higherHalf h = some (madt, h₁))
    (hmalloc : kmallocArrays A (load pl.ram (madt + 4) 4) madtArrays (fun _ => 0) h₁ =
      .ok (arrays, h₂)) : pl.TableOn A k h p ↔ (∃ t ∈ pl.tables, pageOf t = p) ∧
        ∀ a ∈ ioApicAddresses (fun i => pl.ram (madt + i)) (oldEntries h₂.bytes arrays .ioApics),
          pageOf a ≠ p := by
  constructor
  · rintro ⟨madt', h₁', arrays', h₂', hsome', hmalloc', htable, hwindow⟩
    cases hsome.symm.trans hsome'
    cases hmalloc.symm.trans hmalloc'
    exact ⟨htable, hwindow⟩
  · rintro ⟨htable, hwindow⟩
    exact ⟨madt, h₁, arrays, h₂, hsome, hmalloc, htable, hwindow⟩

theorem writableEntry_regrow (he : WritableEntry p e) : WritableEntry p (regrow i frames e) ↔
    ∀ f, lastFrame i frames = some f → f = BitVec.ofNat 64 p := by
  rw [regrow]
  cases lastFrame i frames with
  | none =>
    refine iff_of_true he ?_
    rintro f ⟨⟩
  | some f =>
    constructor
    · rintro ⟨flags, heq, _⟩ f' hf
      cases hf
      cases heq
      rfl
    · intro hsame
      rw [hsame f rfl]
      exact ⟨heapPte, rfl, by decide⟩

theorem heapOn_iff (hp : p = 0x10000000000 + i * pageSize) (hi : i < maxPages) :
    HeapOn frames p ↔ ∃ f, lastFrame i frames = some f ∧ f ≠ BitVec.ofNat 64 p := by
  constructor
  · rintro ⟨j, _, hj, hf⟩
    have hpos : 0 < pageSize := by decide
    obtain rfl : i = j := Nat.eq_of_mul_eq_mul_right hpos (Nat.add_left_cancel (hp.symm.trans hj))
    exact hf
  · exact fun hf => ⟨i, hi, hp, hf⟩

theorem heapOn_clear (hclear : p < 0x10000000000 ∨ 0x10000000000 + pageSize * maxPages ≤ p) :
    ¬HeapOn frames p := by
  rintro ⟨i, hi, rfl, _⟩
  simp only [pageSize, maxPages] at *
  omega

/-- The alias of the page belongs to a page of the heap. -/
theorem Chunk.Page.heapIndex (hpage : Chunk.Page c p)
    (hin : ¬(p < 0x10000000000 ∨ 0x10000000000 + pageSize * maxPages ≤ p)) :
    ∃ i < maxPages, p = 0x10000000000 + i * pageSize := by
  have hdvd := hpage.aligned
  refine ⟨(p - 0x10000000000) / pageSize, ?_, ?_⟩
  · simp only [pageSize, maxPages] at *
    omega
  · simp only [pageSize, maxPages] at *
    omega

theorem Platform.tableOn_clear (hp : HhdmPlaced k.higherHalf)
    (hv : 2 ^ 64 - 2 ^ 31 ≤ k.virtualBase)
    (hrsdp : ∀ a, pl.rsdp = some a → ∀ i < 20, k.Shown (a + i))
    (hin : ¬(p < 0x10000000000 ∨ 0x10000000000 + pageSize * maxPages ≤ p)) :
    ¬pl.TableOn A k h p := by
  rintro ⟨_, _, _, _, _, _, ⟨t, ht, htp⟩, _⟩
  have hshown := (pl.tables_shown hp hv hrsdp t ht).clear
  simp only [pageOf, pageSize, maxPages] at *
  omega

section Boot
variable {s : σ} {mem : BitVec 64 → Fin 512 → BitVec 64} {root : BitVec 64} {v : Vmm σ}
  (hk : k.Regular) (hp : HhdmPlaced k.higherHalf) (hfb : k.FramebufferPlaced)
  (hvmm : setupVmm A k ⟨mem, s, []⟩ = .ok (root, v)) (hapic : k.Shown pl.apicAddress)
  (hbefore : beforeAcpi A k pl root v bytes = .ok h)
include hk hp hfb hvmm hapic hbefore

theorem beforeAcpi_remapped : ∃ N M, h.Direct A k M ∧
    Remapped k [(pl.apicAddress, apicFlags)]
      (setupFrames A k.higherHalf (Heap.initial v root bytes) ++
        match setupHeap A k.higherHalf (Heap.initial v root bytes) with
        | .ok h => kmallocFrames A h 6144
        | .error _ => []) N M ∧
    ∀ c ∈ k.chunks, ∀ p, c.Page p → WritableEntry p (N (k.directPage p)) := by
  obtain ⟨h₁, hheap, h₀⟩ := bind_ok hbefore
  obtain ⟨⟨q, h₂⟩, hmalloc, h₀⟩ := bind_ok h₀
  obtain ⟨h₃, hfree, h₀⟩ := bind_ok h₀
  obtain ⟨M₁, N, hM₁, hover₁, hset⟩ := setupHeap_direct hk hp hfb hvmm hheap
  obtain ⟨M₂, hM₂, hover₂⟩ :=
    hM₁.regrown hk hp (kmalloc_keepsBacked hmalloc) (kmalloc_regrows hmalloc)
  obtain ⟨M₃, hM₃, hover₃⟩ :=
    hM₂.regrown hk hp (kfree_keepsBacked hfree) (kfree_edits hfree).regrows
  obtain ⟨M, hM, hover₄⟩ := hM₃.bootstrapApic hk hp hapic h₀
  refine ⟨N, M, hM, ?_, hset⟩
  have hall := hover₁.trans (hover₂.trans (hover₃.trans hover₄))
  rw [List.append_nil, List.append_nil] at hall
  rw [hheap]
  exact hall

variable (hv : 2 ^ 64 - 2 ^ 31 ≤ k.virtualBase)
  (hrsdp : ∀ a, pl.rsdp = some a → ∀ i < 20, k.Shown (a + i))
  (hboot : boot A k pl stack ⟨mem, s, []⟩ bytes = .ok b)
include hv hrsdp hboot

/-- The boot maps the tables and then the IO APICs over pages it could write before, and the heap
grows. -/
theorem boot_remapped : ∃ N M tables, b.heap.Direct A k M ∧
    (∀ c ∈ k.chunks, ∀ p, c.Page p → WritableEntry p (N (k.directPage p))) ∧
    Remapped k ((pl.apicAddress, apicFlags) ::
      (readOnly tables ++ deviceWindows b.acpi.madt.ioApicWindows))
      (bootFrames A k pl root v bytes h) N M ∧
    ((pl.beforeMadt A k.higherHalf h = none ∧ b.acpi.fadt = 0 ∧ tables = []) ∨
      ∃ madt h₁ arrays h₂, pl.beforeMadt A k.higherHalf h = some (madt, h₁) ∧
        kmallocArrays A (load pl.ram (madt + 4) 4) madtArrays (fun _ => 0) h₁ =
          .ok (arrays, h₂) ∧
        b.acpi.madt.ioApicWindows = ioApicAddresses (fun i => pl.ram (madt + i))
          (oldEntries h₂.bytes arrays .ioApics) ∧ b.acpi.fadt ≠ 0 ∧ tables = pl.tables) := by
  obtain ⟨N, M, hM, hover, hset⟩ := beforeAcpi_remapped hk hp hfb hvmm hapic hbefore
  rw [boot_eq] at hboot
  obtain ⟨⟨root', v'⟩, hvmm', h₀⟩ := bind_ok hboot
  cases hvmm.symm.trans hvmm'
  obtain ⟨h', hbefore', h₀⟩ := bind_ok h₀
  cases hbefore.symm.trans hbefore'
  obtain ⟨⟨g, h₁⟩, hacpi, h₀⟩ := bind_ok h₀
  obtain ⟨⟨calls, h₂⟩, hio, h₀⟩ := bind_ok h₀
  cases h₀
  obtain ⟨M₁, hM₁, hacpi'⟩ := hM.bootstrapAcpi_remapped hk hp hv hrsdp hacpi
  obtain ⟨M₂, hM₂, hover₂⟩ := hM₁.setupIoApics hk hp hv hio
  rw [bootFrames]
  rcases hacpi' with ⟨hnone, hfadt, hover₁⟩ | ⟨madt, h₃, arrays, h₄, hsome, hmalloc, hwindows,
    hfadt, hover₁⟩
  · have hall := hover.trans (hover₁.trans hover₂)
    refine ⟨N, M₂, [], hM₂, hset, ?_, .inl ⟨hnone, hfadt, rfl⟩⟩
    rw [hnone]
    exact hall
  · have hall := hover.trans (hover₁.trans hover₂)
    refine ⟨N, M₂, pl.tables, hM₂, hset, ?_,
      .inr ⟨madt, h₃, arrays, h₄, hsome, hmalloc, hwindows, hfadt, rfl⟩⟩
    rw [List.append_nil] at hall
    rw [hsome]
    exact hall

theorem boot_pages : ∃ M, b.heap.Direct A k M ∧ ∀ c ∈ k.chunks, ∀ p, c.Page p →
    (WritableEntry p (M (k.directPage p)) ↔
      ¬pl.TableOn A k h p ∧ ¬HeapOn (bootFrames A k pl root v bytes h) p) := by
  obtain ⟨N, M, tables, hM, hset, hover, hcases⟩ :=
    boot_remapped hk hp hfb hvmm hapic hbefore hv hrsdp hboot
  refine ⟨M, hM, fun c hc p hpage => ?_⟩
  have he := hset c hc p hpage
  by_cases hclear : p < 0x10000000000 ∨ 0x10000000000 + pageSize * maxPages ≤ p
  · have hs := hpage.shown hk hc hclear
    have hne : N (k.directPage p) ≠ none := by
      obtain ⟨flags, heq, _⟩ := he
      rw [heq]
      exact Option.some_ne_none _
    have hval := hover.aliases p hs hne
    have hapicFlags : hasFlag (apicFlags ||| ptePresent) pteWritable = true := rfl
    have hapicEntry := he.repaint (l := [(pl.apicAddress, apicFlags)])
      (List.forall_mem_singleton.2 hapicFlags)
    rw [pageOf_of_dvd hpage.aligned, ← List.singleton_append, repaint_append,
      repaint_append] at hval
    rw [hval, writableEntry_tables hapicEntry, and_iff_left (heapOn_clear hclear)]
    rcases hcases with ⟨hnone, _, rfl⟩ | ⟨madt, h₁, arrays, h₂, hsome, hmalloc, hwindows, _, rfl⟩
    · apply iff_of_true
      · rintro ⟨t, ht, _⟩
        cases ht
      · rintro ⟨_, _, _, _, hsome, _⟩
        cases hnone.symm.trans hsome
    · rw [Platform.tableOn_iff hsome hmalloc, ← hwindows]
      simp only [not_and, not_forall, not_not, exists_prop]
  · obtain ⟨i, hi, hpi⟩ := hpage.heapIndex hclear
    have hval := hover.heap i hi
    rw [heapPage_eq, ← hpi] at hval
    rw [hval, writableEntry_regrow he, and_iff_right (pl.tableOn_clear hp hv hrsdp hclear),
      heapOn_iff hpi hi]
    simp only [not_exists, not_and, not_not]

/-- After a boot the direct map can be written on every page of a chunk if and only if none of them
holds a table that `bootstrap_acpi` maps, save under the window of an IO APIC, and the heap has put
no other page at the alias of one. -/
theorem boot_directWritable : b.heap.DirectWritable k ↔ ∀ c ∈ k.chunks, ∀ p, c.Page p →
    ¬pl.TableOn A k h p ∧ ¬HeapOn (bootFrames A k pl root v bytes h) p := by
  obtain ⟨M, hM, hpages⟩ := boot_pages hk hp hfb hvmm hapic hbefore hv hrsdp hboot
  rw [hM.writable_iff]
  exact forall₄_congr hpages

end Boot

def blankEntry : RedirectionEntry := ⟨0, 0, 0, 0, 0, 0, 0, 0, 0, 0, 0⟩

theorem boot_states {s : σ} (h₀ : boot A k pl stack ⟨mem, s, []⟩ bytes = .ok b) :
    ∃ root v h, setupVmm A k ⟨mem, s, []⟩ = .ok (root, v) ∧
      beforeAcpi A k pl root v bytes = .ok h := by
  rw [boot_eq] at h₀
  obtain ⟨⟨root, v⟩, hvmm, h₀⟩ := bind_ok h₀
  obtain ⟨h, hbefore, _⟩ := bind_ok h₀
  exact ⟨root, v, h, hvmm, hbefore⟩

theorem tablesAt_tables : (tablesAt 0x11000000).tables =
    [0x11000000, 0x11000040, 0x11000080, 0x11000080, 0x110000C0] := by decide +kernel

/-- Tables behind the only chunk. -/
theorem boot_directWritable_apart : ∃ (x : OwnedPmm oneChunk) (b : Booted (OwnedPmm oneChunk)),
    boot (pmmFrames oneChunk_sound) wideLayout (tablesAt 0x11000000) blankEntry
      ⟨fun _ _ => 0, x, []⟩ (fun _ => 0) = .ok b ∧ b.heap.DirectWritable wideLayout := by
  obtain ⟨x, _, hl⟩ := oneChunk_frames
  obtain ⟨b, hb, _⟩ := tablesAt_boots tablePage_apart (by decide) (by decide) (by decide) hl
    (fun _ _ => 0) blankEntry fun _ => 0
  obtain ⟨root, v, h, hvmm, hbefore⟩ := boot_states hb
  have hiff := boot_directWritable wideLayout_regular wideLayout_placed wideLayout_framebuffer hvmm
    (tablesAt_apicShown 0x11000000) hbefore (by decide) (tablesAt_rsdpShown (by decide)) hb
  refine ⟨x, b, hb, hiff.2 fun c hc p hp => ?_⟩
  obtain rfl : c = ⟨0x1000000, 0x11000000⟩ := List.mem_singleton.1 hc
  have htop : p < 0x11000000 := hp.top
  refine ⟨?_, heapOn_clear (.inl (by omega))⟩
  rintro ⟨_, _, _, _, _, _, ⟨t, ht, rfl⟩, _⟩
  rw [tablesAt_tables] at ht
  have hpages : ∀ t ∈ [0x11000000, 0x11000040, 0x11000080, 0x11000080, 0x110000C0],
      ¬pageOf t < 0x11000000 := by decide
  exact hpages t ht htop

/-- The machine of `oneChunk` with ACPI tables on the last page of its memory, which the
bootloader marks as reclaimable. -/
def tablesInChunk : BootInfo where
  memmap := [
    ⟨0x1000000, 0xffff000, .usable⟩, ⟨0x10fff000, 0x1000, .acpiReclaimable⟩,
    ⟨0x7fe00000, 0x200000, .executableAndModules⟩]
  physicalBase := 0x7fe00000
  virtualBase := 0xffffffff80000000
  executableFileSize := 0x100000
  pageBitmap := 0xffffffff80020000

theorem tablesInChunk_descriptor : getMemoryDescriptor tablesInChunk.memmap =
    .ok ⟨0x10000000, 1, [⟨0x1000000, 0x11000000⟩]⟩ := rfl

theorem tablesInChunk_mappings : tablesInChunk.mappings = [⟨0x1000000, 0, 65536⟩] := rfl

theorem tablesInChunk_admissible : Admissible tablesInChunk where
  sorted := by decide
  physical := by decide
  aligned := by decide
  disjoint := by decide
  chunks := fun d hd => by
    rw [tablesInChunk_descriptor] at hd
    cases hd
    decide

theorem tablesInChunk_setup (ram : Nat → BitVec 8) :
    ∃ s, setupPmm tablesInChunk ram = .ok (0x1002000, s) ∧ Climb tablesInChunk s 2 65535 :=
  setupPmm_climb tablesInChunk_descriptor rfl (by decide) (by decide) (by decide) (by decide)
    (by decide) (by decide) tablesInChunk_mappings rfl (by decide) (by decide) (by decide)

theorem tablesInChunk_sound : SoundMap tablesInChunk := by
  refine ⟨tablesInChunk_admissible, tablesInChunk_admissible.agree_one tablesInChunk_mappings, ?_⟩
  apply tablesInChunk_admissible.in_ram_one tablesInChunk_mappings
  rw [BootInfo.chunks, tablesInChunk_descriptor]
  exact List.mem_cons_self ..

/-- The boot on that machine leaves a page that `pp_alloc` may return without write access. -/
theorem boot_tables_readOnly : getMemoryDescriptor tablesInChunk.memmap = .ok wideLayout.desc ∧
    ∃ (s : Pmm) (x : OwnedPmm tablesInChunk) (b : Booted (OwnedPmm tablesInChunk)),
      setupPmm tablesInChunk (tablePage 0x10fff000) = .ok (0x1002000, s) ∧ x.pmm = s ∧
      boot (pmmFrames tablesInChunk_sound) wideLayout (tablesAt 0x10fff000) blankEntry
        ⟨fun _ _ => 0, x, []⟩ (fun _ => 0) = .ok b ∧
      ¬b.heap.DirectWritable wideLayout := by
  refine ⟨tablesInChunk_descriptor, ?_⟩
  obtain ⟨s, hs, hclimb⟩ := tablesInChunk_setup (tablePage 0x10fff000)
  obtain ⟨x, hx, _, hl⟩ := tablesInChunk_sound.frames_one tablesInChunk_mappings hs hclimb
    (by decide)
  obtain ⟨b, hb, hfadt, hwindows⟩ := tablesAt_boots tablePage_inside (by decide) (by decide)
    (by decide) hl (fun _ _ => 0) blankEntry fun _ => 0
  refine ⟨s, x, b, hs, hx, hb, fun hw => ?_⟩
  obtain ⟨root, v, h, hvmm, hbefore⟩ := boot_states hb
  have hapic := tablesAt_apicShown 0x10fff000
  have hrsdp := tablesAt_rsdpShown (t := 0x10fff000) (by decide)
  obtain ⟨M, hM, hpages⟩ := boot_pages wideLayout_regular wideLayout_placed wideLayout_framebuffer
    hvmm hapic hbefore (by decide) hrsdp hb
  obtain ⟨_, _, _, _, _, _, hcases⟩ := boot_remapped wideLayout_regular wideLayout_placed
    wideLayout_framebuffer hvmm hapic hbefore (by decide) hrsdp hb
  have hpage : Chunk.Page ⟨0x1000000, 0x11000000⟩ 0x10fff000 := by
    constructor <;> decide
  have hmem : (⟨0x1000000, 0x11000000⟩ : Chunk) ∈ wideLayout.chunks := List.mem_singleton_self _
  have hoff := ((hpages _ hmem _ hpage).1 (hM.writable_iff.1 hw _ hmem _ hpage)).1
  rcases hcases with ⟨_, hno, _⟩ | ⟨madt, h₁, arrays, h₂, hsome, hmalloc, hlisted, _, _⟩
  · exact hfadt hno
  · apply hoff
    rw [Platform.tableOn_iff hsome hmalloc, ← hlisted, hwindows]
    exact ⟨⟨0x10fff000, List.mem_cons_self .., rfl⟩, List.forall_mem_nil _⟩

end AdaOS
