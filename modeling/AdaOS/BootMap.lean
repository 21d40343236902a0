import AdaOS.AcpiTables

namespace AdaOS
set_option autoImplicit true
open ByteMem

/-- The direct map shows every page of a chunk, and every level of the tables lets it be
written. -/
def Heap.DirectWritable (k : KernelLayout) (h : Heap σ) : Prop :=
  ∀ c ∈ k.chunks, ∀ p, c.Page p → ∃ a,
    h.vmm.access h.pml4 (BitVec.ofNat 64 (p + k.higherHalf)) = some a ∧
    a.frame = BitVec.ofNat 64 p ∧ a.writable = true

def Platform.apicAddress (pl : Platform) : Nat := (pl.apicBase &&& ~~~0xFFF).toNat

/-- The addresses of `n` IO APICs from the one at index `i` on. -/
def Madt.windowsFrom (w : Madt) (i n : Nat) : List Nat :=
  (List.range' i n).map fun j => field (w.entries .ioApics j) 2 4

/-- The addresses of the IO APICs that `setup_io_apic` maps. -/
def Madt.ioApicWindows (w : Madt) : List Nat := w.windowsFrom 0 (w.num .ioApics).toNat

/-- Mappings with the flags of an IO APIC. -/
def deviceWindows (windows : List Nat) : List (Nat × BitVec 64) :=
  windows.map fun a => (a, ioApicFlags)

variable {σ : Type} {A : FrameAllocator σ} {h h' : Heap σ} {k : KernelLayout} {M : PageMap}
  {pl : Platform} {b : Booted σ}

theorem WritableEntry.repaint (he : WritableEntry p e)
    (hl : ∀ x ∈ l, hasFlag (x.2 ||| ptePresent) pteWritable = true) :
    WritableEntry p (repaint p l e) := by
  induction l generalizing e with
  | nil => exact he
  | cons x l ih =>
    obtain ⟨hx, hl⟩ := List.forall_mem_cons.1 hl
    apply ih _ hl
    split
    · exact ⟨_, rfl, hx⟩
    · exact he

/-- A page that holds a table can be written only if an IO APIC's window is on it too. -/
theorem writableEntry_tables (he : WritableEntry p e) (tables windows : List Nat) :
    WritableEntry p (repaint p (deviceWindows windows) (repaint p (readOnly tables) e)) ↔
    ((∃ t ∈ tables, pageOf t = p) → ∃ a ∈ windows, pageOf a = p) := by
  have hdevice : ∀ x ∈ deviceWindows windows, x.2 = ioApicFlags := by
    intro x hx
    obtain ⟨a, _, rfl⟩ := List.mem_map.1 hx
    rfl
  have htables : ∀ x ∈ readOnly tables, x.2 = acpiFlags := by
    intro x hx
    obtain ⟨a, _, rfl⟩ := List.mem_map.1 hx
    rfl
  by_cases hwindow : ∃ a ∈ windows, pageOf a = p
  · obtain ⟨a, ha, hap⟩ := hwindow
    have hmem : (a, ioApicFlags) ∈ deviceWindows windows := List.mem_map_of_mem ha
    rw [repaint_of_mem hdevice hmem hap]
    exact iff_of_true ⟨_, rfl, by decide⟩ fun _ => ⟨a, ha, hap⟩
  · have hnone : ∀ x ∈ deviceWindows windows, pageOf x.1 ≠ p := by
      intro x hx hap
      obtain ⟨a, ha, rfl⟩ := List.mem_map.1 hx
      exact hwindow ⟨a, ha, hap⟩
    rw [repaint_of_ne hnone]
    by_cases htable : ∃ t ∈ tables, pageOf t = p
    · obtain ⟨t, ht, htp⟩ := htable
      have hmem : (t, acpiFlags) ∈ readOnly tables := List.mem_map_of_mem ht
      rw [repaint_of_mem htables hmem htp]
      apply iff_of_false
      · intro hw
        obtain ⟨flags, heq, hf⟩ := hw
        cases heq
        cases hf
      · intro hall
        exact hwindow (hall ⟨t, ht, htp⟩)
    · have hoff : ∀ x ∈ readOnly tables, pageOf x.1 ≠ p := by
        intro x hx hxp
        obtain ⟨a, ha, rfl⟩ := List.mem_map.1 hx
        exact htable ⟨a, ha, hxp⟩
      rw [repaint_of_ne hoff]
      exact iff_of_true he fun hno => (htable hno).elim

theorem Chunk.Page.shown (hp : c.Page p) (hk : k.Regular) (hc : c ∈ k.chunks)
    (hclear : p < 0x10000000000 ∨ 0x10000000000 + pageSize * maxPages ≤ p) : k.Shown p := by
  obtain ⟨hlt, hno⟩ := hk.apart c hc p hp
  rw [Nat.add_comm] at hlt hno
  exact ⟨hlt, by rwa [pageOf_of_dvd hp.aligned], hclear⟩

theorem Heap.Direct.writable_iff (hd : h.Direct A k M) :
    h.DirectWritable k ↔ ∀ c ∈ k.chunks, ∀ p, c.Page p → WritableEntry p (M (k.directPage p)) := by
  apply forall₄_congr
  intro c hc p hp
  rw [hd.maps.access, ← KernelLayout.directPage]
  constructor
  · intro hw
    obtain ⟨a, ha, hframe, hflag⟩ := hw
    obtain ⟨e, he, rfl⟩ := Option.map_eq_some_iff.1 ha
    exact ⟨e.2, by rw [he, ← hframe], hflag⟩
  · intro hw
    obtain ⟨flags, he, hflag⟩ := hw
    exact ⟨_, by rw [he]; rfl, rfl, hflag⟩

theorem getApic_address (h : getApic data = .ok apic) :
    apic.apicAddress = (data &&& ~~~0xFFF).toNat := by
  rw [getApic] at h
  dsimp only at h
  split at h
  · cases h
  · split at h
    · cases h
    · cases h
      rfl

theorem Heap.Direct.bootstrapApic (hd : h.Direct A k M) (hk : k.Regular)
    (hp : HhdmPlaced k.higherHalf) (hs : k.Shown pl.apicAddress)
    (h₀ : bootstrapApic A k.higherHalf pl h = .ok h') :
    ∃ M', h'.Direct A k M' ∧ Remapped k [(pl.apicAddress, apicFlags)] [] M M' := by
  obtain ⟨apic, hget, h₀⟩ := bind_ok h₀
  obtain ⟨⟨mapped, g⟩, hmap, h₀⟩ := bind_ok h₀
  rw [getApic_address hget, ← Platform.apicAddress] at hmap
  obtain ⟨M', hM', hover, _⟩ := hd.mapDirect_remapped hk hp hs (by decide) hmap
  dsimp only at h₀
  split at h₀
  · cases h₀
  · split at h₀
    · cases h₀
    · split at h₀
      · cases h₀
      · cases h₀
        exact ⟨M', hM', hover⟩

theorem Heap.Direct.setupIoApics (hd : h.Direct A k M) (hk : k.Regular)
    (hp : HhdmPlaced k.higherHalf) (hv : 2 ^ 64 - 2 ^ 31 ≤ k.virtualBase)
    (h₀ : setupIoApics A k.higherHalf pl stack w i n h = .ok (calls, h')) :
    ∃ M', h'.Direct A k M' ∧ Remapped k (deviceWindows (w.windowsFrom i n)) [] M M' := by
  induction n generalizing i h M calls with
  | zero =>
    cases h₀
    exact ⟨M, hd, .refl⟩
  | succ n ih =>
    obtain ⟨⟨c, g⟩, hone, h₀⟩ := bind_ok h₀
    obtain ⟨⟨rest, g'⟩, hrest, h₀⟩ := bind_ok h₀
    cases h₀
    obtain ⟨⟨mapped, u⟩, hmap, hone⟩ := bind_ok hone
    have hlt : field (w.entries .ioApics i) 2 4 < 2 ^ 32 := load_lt _ _ 4
    obtain ⟨M₁, hM₁, hover₁, _⟩ :=
      hd.mapDirect_remapped hk hp (shown_of_lt hp hv (by omega)) (by decide) hmap
    dsimp only at hone
    split at hone
    · cases hone
    · split at hone
      · cases hone
      · cases hone
        obtain ⟨M', hM', hover⟩ := ih hM₁ hrest
        exact ⟨M', hM', hover₁.trans hover⟩

theorem setupHeap_same (hk : k.Regular) (hp : HhdmPlaced k.higherHalf)
    (hM : v.Maps A root M) (hid : k.Identity M)
    (h₀ : setupHeap A k.higherHalf (Heap.initial v root bytes) = .ok h) :
    ∃ M', h.Direct A k M' ∧ ∀ a, k.Shown a → M' (k.directPage a) = M (k.directPage a) := by
  obtain ⟨⟨n, M', hb⟩, hpml4, hstart, hkeep⟩ := setupHeap_backed hp hM h₀
  have hsame : ∀ a, k.Shown a → M' (k.directPage a) = M (k.directPage a) := by
    intro a hs
    have hoff := hs.offHeap hk hp 0
    rw [← hstart] at hoff
    have ht := hkeep _ hoff
    rw [← hpml4, hb.backs.maps.translate, hpml4, hM.translate] at ht
    exact ht
  exact ⟨M', ⟨⟨n, hb⟩, hstart, hid.congr hsame⟩, hsame⟩

theorem setupHeap_direct (hk : k.Regular) (hp : HhdmPlaced k.higherHalf)
    (hfb : k.FramebufferPlaced) (hv : setupVmm A k ⟨mem, s, []⟩ = .ok (root, v))
    (h₀ : setupHeap A k.higherHalf (Heap.initial v root bytes) = .ok h) :
    ∃ M N, h.Direct A k M ∧
      Remapped k [] (setupFrames A k.higherHalf (Heap.initial v root bytes)) N M ∧
      ∀ c ∈ k.chunks, ∀ p, c.Page p → WritableEntry p (N (k.directPage p)) := by
  obtain ⟨N, hN, hid, hset⟩ := setupVmm_direct hk hfb hv
  obtain ⟨M, hM, hsame⟩ := setupHeap_same hk hp hN hid h₀
  refine ⟨M, N, hM, ⟨fun a hs _ => hsame a hs, fun i hi => ?_⟩, hset⟩
  have hpage := setupHeap_regrows hp hN h₀ hi
  rw [hM.maps.translate, hM.start] at hpage
  exact hpage

end AdaOS
