import AdaOS.BootMap
import AdaOS.MadtDecode
import AdaOS.PmmFrames

namespace AdaOS
set_option autoImplicit true
open ByteMem Blocks

/-- A kernel that sees the physical addresses `seen`, with one free block of `room` bytes or more
in its heap and `n` frames to take. -/
structure Heap.Ready (A : FrameAllocator σ) (k : KernelLayout) (seen : Nat → Prop) (room n : Nat)
    (h : Heap σ) : Prop where
  direct : ∃ M, h.Direct A k M ∧ ∀ a, k.Shown a → seen a → M (k.directPage a) ≠ none
  heap : ∃ live c, HeapInv A h live [c] ∧ room ≤ c.size
  frames : A.Lasts n h.vmm.frames

variable {σ : Type} {A : FrameAllocator σ} {h h' : Heap σ} {k : KernelLayout} {pl : Platform}
  {seen seen' : Nat → Prop} {ram : Mem}

theorem Heap.Ready.mono (hr : h.Ready A k seen room n) (hs : ∀ a, seen' a → seen a) :
    h.Ready A k seen' room n := by
  obtain ⟨M, hd, hm⟩ := hr.direct
  exact ⟨⟨M, hd, fun a ha hsa => hm a ha (hs a hsa)⟩, hr.heap, hr.frames⟩

theorem Overlay.ne_none (ho : Overlay k l M M') (hm : M (k.directPage a) ≠ none) (hs : k.Shown a) :
    M' (k.directPage a) ≠ none := by
  rw [ho a hs hm]
  exact repaint_ne_none hm

section Steps
variable (hk : k.Regular) (hp : HhdmPlaced k.higherHalf)
include hk hp

theorem Heap.Ready.mapDirect (hr : h.Ready A k seen room (n + 3)) (hs : k.Shown a)
    (hf : pteGetAddr flags = 0) : ∃ h', h.mapDirect A k.higherHalf a flags = .ok (true, h') ∧
      h'.Ready A k (fun b => seen b ∨ pageOf b = pageOf a) room n := by
  obtain ⟨M, hd, hm⟩ := hr.direct
  obtain ⟨live, c, hi, hroom⟩ := hr.heap
  obtain ⟨v, hv, hl, _⟩ := mapPage_lasts hr.frames h.pml4
    (BitVec.ofNat 64 (a + k.higherHalf)) (BitVec.ofNat 64 a) flags
  have h₀ : h.mapDirect A k.higherHalf a flags = .ok (true, { h with vmm := v }) :=
    bind_of_ok hv _
  obtain ⟨M', hd', hover, _, hdone⟩ := hd.mapDirect hk hp hs.lt hs.clear hf h₀
  refine ⟨_, h₀, ⟨M', hd', fun b hb hseen => ?_⟩, ⟨live, c, ?_, hroom⟩, hl⟩
  · rcases hseen with hseen | hpage
    · exact hover.ne_none (hm b hb hseen) hb
    · rw [(directPage_eq_iff hk hb.lt hs.lt).2 hpage]
      exact hdone rfl
  · have hpages : PagesMapped A (h.heapStart + h.heapSize) h { h with vmm := v } :=
      ⟨rfl, rfl, rfl, mapPage_inUse hv, fun _ _ => rfl⟩
    exact (hi.mapped hpages).1

theorem Heap.Ready.kmalloc (hr : h.Ready A k seen (room + totalSize size) n) (hroom : 16 ≤ room)
    (hs : size ≠ 0) (hle : size ≤ 2 ^ 64 - 32) : ∃ p h', kmalloc A h size = .ok (p, h') ∧
      p ≠ 0 ∧ h'.Ready A k seen room n := by
  obtain ⟨M, hd, hm⟩ := hr.direct
  obtain ⟨live, c, hi, hc⟩ := hr.heap
  obtain ⟨p, h', h₀, hptr, hvmm, _, hi'⟩ := hi.kmalloc_split hs hle (by omega)
  obtain ⟨M', hd', hover⟩ := hd.kept hk hp (kmalloc_keepsBacked h₀)
  refine ⟨p, h', h₀, hptr, ⟨M', hd', fun b hb hseen => hover.ne_none (hm b hb hseen) hb⟩,
    ⟨_, _, hi', ?_⟩, hvmm ▸ hr.frames⟩
  dsimp only
  omega

end Steps

theorem Heap.Ready.shows (hr : h.Ready A k seen room n) (hk : k.Regular) (hs : k.Shown a)
    (ha : seen a) : h.shows ram (a + k.higherHalf) = some (ram a) := by
  obtain ⟨M, hd, hm⟩ := hr.direct
  obtain ⟨e, he⟩ := Option.ne_none_iff_exists'.1 (hm a hs ha)
  have hshow : ∃ b, h.shows ram (a + k.higherHalf) = some b := by
    rw [Heap.shows, hd.maps.access, ← KernelLayout.directPage, he]
    exact ⟨_, rfl⟩
  obtain ⟨b, hb⟩ := hshow
  rw [hb, hd.shows hk hs hb]

/-- The addresses of the page at `t`. -/
def OnPage (t a : Nat) : Prop := pageOf a = t

/-- The tables lie on one page of the direct map. -/
structure KernelLayout.TablesAt (k : KernelLayout) (t : Nat) : Prop where
  aligned : pageSize ∣ t
  top : t + pageSize ≤ 2 ^ 32
  shown : ∀ a, OnPage t a → k.Shown a

theorem KernelLayout.TablesAt.onPage (ht : k.TablesAt t) (ho : o < pageSize) :
    OnPage t (t + o) := by
  have hd := ht.aligned
  rw [OnPage, pageOf]
  simp only [pageSize] at *
  omega

section Reads
variable (ram) (hk : k.Regular) (ht : k.TablesAt t) (hr : h.Ready A k (OnPage t) room n)
include hk ht hr

theorem Heap.Ready.showsAt (ho : o < pageSize)
    (hvirt : virt = t + o + k.higherHalf) :
    h.shows ram virt = some (ram (t + o)) := by
  rw [hvirt]
  exact hr.shows hk (ht.shown _ (ht.onPage ho)) (ht.onPage ho)

theorem Heap.Ready.viewAt (ho : o + i < pageSize)
    (hvirt : virt = t + o + k.higherHalf) :
    h.view ram virt i = ram (t + o + i) := by
  rw [Heap.view, hr.showsAt ram hk ht ho (by omega), Option.getD_some, Nat.add_assoc]

theorem Heap.Ready.readsAt (ho : o + m ≤ pageSize)
    (hvirt : virt = t + o + k.higherHalf) : h.reads ram virt m = .ok () := by
  rw [Heap.reads, if_pos]
  intro i hi
  rw [hr.showsAt ram hk ht (o := o + i) (by omega) (by omega)]
  rfl

theorem Heap.Ready.loadAt (ho : o + m ≤ pageSize)
    (hvirt : virt = t + o + k.higherHalf) :
    h.loadAt ram virt m = .ok (load ram (t + o) m) := by
  have hload : load (h.view ram virt) 0 m = load ram (t + o) m := by
    apply load_shift
    intro i hi
    rw [Nat.zero_add, hr.viewAt ram hk ht (by omega) hvirt]
  rw [← hload]
  exact bind_of_ok (hr.readsAt ram hk ht ho hvirt) _

theorem Heap.Ready.memcmpAt (ho : o + i + m ≤ pageSize)
    (hvirt : virt = t + o + k.higherHalf) :
    h.memcmpAt ram virt s i m = .ok (memcmpFrom (fun j => ram (t + o + j)) s i m) := by
  induction m generalizing i with
  | zero => rfl
  | succ m ih =>
    rw [Heap.memcmpAt, hr.showsAt ram hk ht (o := o + i) (by omega) (by omega),
      ← Nat.add_assoc, memcmpFrom]
    dsimp only
    split
    · rfl
    · exact ih (by omega)

theorem Heap.Ready.checksum_ok (hlen : load ram (t + o + 4) 4 = m) (ho : o + m ≤ pageSize)
    (hhead : o + 8 ≤ pageSize) (hvirt : virt = t + o + k.higherHalf)
    (hsum : (List.range m).foldl (fun sum i => sum + ram (t + o + i)) (0 : BitVec 8) = 0) :
    checksumAt ram h virt = .ok () := by
  have hlength : sdtLength (h.view ram virt) = m := by
    rw [← hlen]
    apply load_shift
    intro i hi
    rw [hr.viewAt ram hk ht (by omega) hvirt, ← Nat.add_assoc]
  have hbytes : (List.range (sdtLength (h.view ram virt))).foldl
      (fun sum i => sum + h.view ram virt i) (0 : BitVec 8) = 0 := by
    rw [hlength]
    refine (List.foldl_ext _ _ _ fun sum i hi => ?_).trans hsum
    have hlt := List.mem_range.1 hi
    rw [hr.viewAt ram hk ht (by omega) hvirt]
  have hfirst := hr.readsAt ram hk ht (o := o + 4) (m := 4) (by omega)
    (show virt + 4 = t + (o + 4) + k.higherHalf by omega)
  have hall := hr.readsAt ram hk ht ho hvirt
  rw [checksumAt, hlength]
  refine (bind_of_ok hfirst _).trans ((bind_of_ok hall _).trans ?_)
  exact if_neg (not_not.2 hbytes)

theorem Heap.Ready.findTable_eq (hlength : load ram (t + 0x44) 4 = 44) (signature : String) :
    findTable A ram k.higherHalf h (t + 0x40 + k.higherHalf) signature =
      findEntry A ram k.higherHalf (t + 0x40 + k.higherHalf) signature 0 2 h := by
  have hload := hr.loadAt ram hk ht (show 0x44 + 4 ≤ pageSize by decide)
    (show t + 0x40 + k.higherHalf + 4 = t + 0x44 + k.higherHalf by omega)
  rw [hlength] at hload
  exact bind_of_ok hload _

end Reads

/-- A page with an RSDP, an RSDT, an MADT with one local APIC and an FADT, all valid. -/
structure AcpiPage (ram : Mem) (t : Nat) : Prop where
  rsdp : memcmp (fun i => ram (t + i)) (cString "RSD PTR ") 7 = 0
  rsdpSum : (List.range 20).foldl (fun sum i => sum + (ram (t + i)).toNat) 0 % 2 ^ 32 &&& 0xff = 0
  rsdtAddress : load ram (t + 0x10) 4 = t + 0x40
  rsdt : memcmp (fun i => ram (t + 0x40 + i)) (cString "RSDT") 4 = 0
  rsdtLength : load ram (t + 0x40 + 4) 4 = 44
  rsdtSum : (List.range 44).foldl (fun sum i => sum + ram (t + 0x40 + i)) (0 : BitVec 8) = 0
  madtAddress : load ram (t + 0x64) 4 = t + 0x80
  fadtAddress : load ram (t + 0x68) 4 = t + 0xC0
  madt : memcmp (fun i => ram (t + 0x80 + i)) (cString "APIC") 4 = 0
  madtOther : memcmp (fun i => ram (t + 0x80 + i)) (cString "FACP") 4 ≠ 0
  madtLength : load ram (t + 0x80 + 4) 4 = 52
  madtSum : (List.range 52).foldl (fun sum i => sum + ram (t + 0x80 + i)) (0 : BitVec 8) = 0
  madtFlags : load ram (t + 0xA8) 4 ≠ 0
  recordType : ram (t + 0xAC) = 0
  recordLength : ram (t + 0xAD) = 8
  fadt : memcmp (fun i => ram (t + 0xC0 + i)) (cString "FACP") 4 = 0
  fadtLength : load ram (t + 0xC0 + 4) 4 = 116
  fadtSum : (List.range 116).foldl (fun sum i => sum + ram (t + 0xC0 + i)) (0 : BitVec 8) = 0
  firmwareCtrl : load ram (t + 0xE4) 4 ≠ 0

section Tables
variable (hk : k.Regular) (hp : HhdmPlaced k.higherHalf) (ht : k.TablesAt t)
include hk hp ht

theorem Heap.Ready.mapTable (hr : h.Ready A k (OnPage t) room (n + 3)) (ho : o < pageSize) :
    ∃ h', h.mapDirect A k.higherHalf (t + o) acpiFlags = .ok (true, h') ∧
      h'.Ready A k (OnPage t) room n := by
  obtain ⟨h', h₀, hr'⟩ := hr.mapDirect hk hp (ht.shown _ (ht.onPage ho))
    (show pteGetAddr acpiFlags = 0 by decide)
  exact ⟨h', h₀, hr'.mono fun a ha => .inl ha⟩

/-- One turn of the loop of `find_table`. -/
theorem Heap.Ready.findEntry_turn (hr : h.Ready A k (OnPage t) room (n + 3))
    (hentry : load ram (t + (0x64 + i * 4)) 4 = t + o) (hi : 0x64 + i * 4 + 4 ≤ pageSize)
    (ho : o + 4 ≤ pageSize) (signature : String) (m : Nat) :
    ∃ h', h'.Ready A k (OnPage t) room n ∧
      findEntry A ram k.higherHalf (t + 0x40 + k.higherHalf) signature i (m + 1) h =
        if memcmp (fun j => ram (t + o + j)) (cString signature) 4 = 0 then
          .ok (t + o + k.higherHalf, h')
        else findEntry A ram k.higherHalf (t + 0x40 + k.higherHalf) signature (i + 1) m h' := by
  have hroom := hp.room
  have htop := ht.top
  have hload := hr.loadAt ram hk ht hi
    (show t + 0x40 + k.higherHalf + 36 + i * 4 = t + (0x64 + i * 4) + k.higherHalf by omega)
  rw [hentry] at hload
  obtain ⟨h', hmap, hr'⟩ := hr.mapTable hk hp ht (o := o) (by omega)
  have hvert : u64 (t + o + k.higherHalf) = t + o + k.higherHalf := u64_of_lt (by omega)
  have hcmp := hr'.memcmpAt ram hk ht (s := cString signature) (o := o)
    (i := 0) (m := 4) ho hvert
  refine ⟨h', hr', ?_⟩
  refine (bind_of_ok hload _).trans ?_
  refine (bind_of_ok hmap _).trans ?_
  refine (bind_of_ok hcmp _).trans ?_
  rw [hvert]
  rfl

end Tables

/-- An MADT with one record, of a local APIC. -/
structure OneLocalApic (m : Mem) : Prop where
  length : sdtLength m = 52
  flags : madtFlags m ≠ 0
  type : m madtRecordOffset = 0
  recordLength : m (madtRecordOffset + 1) = 8

/-- `parse_madt` takes the record and looks at nothing else. -/
theorem OneLocalApic.parse (hm : OneLocalApic m) (old : MadtArray → Nat → List (BitVec 8))
    (lastType : BitVec 8) : ∃ w, parseMadt m (Madt.start old lastType) = .ok w ∧
      (madtLoop m (sdtLength m) (Madt.start old lastType)).accesses =
        [.store .localApics 0, .payload madtRecordOffset .localApics, .header madtRecordOffset] ∧
      w.num .ioApics = 0 := by
  have hoff : (madtRecord m (Madt.start old lastType)).offset = 52 := by
    rw [madtRecord_offset]
    change madtRecordOffset + (m (madtRecordOffset + 1)).toNat = 52
    rw [hm.recordLength]
    rfl
  have hfirst : (Madt.start old lastType).offset < sdtLength m := by
    rw [hm.length]
    exact show 0x2c < 52 by decide
  have hloop : madtLoop m (sdtLength m) (Madt.start old lastType) =
      madtRecord m (Madt.start old lastType) := by
    rw [hm.length, show 52 = 1 + 51 from rfl, madtLoop_add, madtLoop_one hfirst]
    apply madtLoop_of_done
    rw [hoff, hm.length]
  have harray : madtArray (m (Madt.start old lastType).offset) = some .localApics := by
    change madtArray (m madtRecordOffset) = _
    rw [hm.type]
    rfl
  have hindex : (Madt.start old lastType).index m = 0 := by
    rw [Madt.index]
    split <;> rfl
  have hnum := (madtRecord_of_array harray).2
  refine ⟨madtRecord m (Madt.start old lastType), ?_, ?_, ?_⟩
  · have hdone : ¬52 < sdtLength m := by
      rw [hm.length]
      decide
    have hplain : ¬Function.update (Madt.start old lastType).num .localApics
        ((Madt.start old lastType).num .localApics + 1) .localApicAddressOverrides > 0 :=
      BitVec.not_lt.2 (BitVec.le_refl _)
    rw [parseMadt, if_neg hm.flags, hloop]
    dsimp only
    rw [hoff, if_neg hdone, hnum, if_neg hplain]
  · rw [hloop, madtRecord_accesses, recordAccesses, harray, hindex]
    rfl
  · rw [hnum]
    rfl

/-- The local APIC is enabled, of a version the kernel supports, and takes its spurious vector. -/
structure Platform.ApicBoots (pl : Platform) : Prop where
  enabled : pl.apicBase.getLsbD 11 = true
  version : ¬pl.apicVersion < 0x10
  spurious : pl.apicSpurious = 0x1F0

section Checks
variable (hk : k.Regular) (ht : k.TablesAt t) (ha : AcpiPage ram t)
include hk ht ha

theorem Heap.Ready.checkRsdp_ok (hr : h.Ready A k (OnPage t) room n) :
    checkRsdp A ram h (t + k.higherHalf) = .ok (t + 0x40) := by
  have hsize : pageSize = 4096 := rfl
  have hview : ∀ i < 20, h.view ram (t + k.higherHalf) i = ram (t + i) := by
    intro i hi
    exact hr.viewAt ram hk ht (o := 0) (by omega) rfl
  have hreads := hr.readsAt ram hk ht (show 0 + 20 ≤ pageSize by decide) rfl
  have hsig : memcmp (h.view ram (t + k.higherHalf)) (cString "RSD PTR ") 7 = 0 := by
    have hbytes := (memcmp_eq_zero _ _ 7).1 ha.rsdp
    apply (memcmp_eq_zero _ _ 7).2
    intro i hi
    rw [hview i (by omega), hbytes i hi]
  have hsum : (List.range 20).foldl
      (fun sum i => sum + (h.view ram (t + k.higherHalf) i).toNat) 0 =
      (List.range 20).foldl (fun sum i => sum + (ram (t + i)).toNat) 0 := by
    apply List.foldl_ext
    intro sum i hi
    rw [hview i (List.mem_range.1 hi)]
  have haddr : load (h.view ram (t + k.higherHalf)) 16 4 = load ram (t + 0x10) 4 := by
    apply load_shift
    intro i hi
    rw [hview (16 + i) (by omega), Nat.add_assoc]
  refine (bind_of_ok hreads _).trans ?_
  dsimp only
  rw [if_neg (not_not.2 hsig), hsum, if_neg (not_not.2 ha.rsdpSum), haddr, ha.rsdtAddress]

theorem Heap.Ready.rsdt_ok (hr : h.Ready A k (OnPage t) room n) :
    checkHeaderSignature A ram h (t + 0x40 + k.higherHalf) "RSDT" = .ok () ∧
      checksumAt ram h (t + 0x40 + k.higherHalf) = .ok () := by
  have hcmp := hr.memcmpAt ram hk ht (s := cString "RSDT") (o := 0x40) (i := 0) (m := 4)
    (by decide) rfl
  constructor
  · refine (bind_of_ok hcmp _).trans ?_
    exact if_neg (not_not.2 ha.rsdt)
  · exact hr.checksum_ok ram hk ht ha.rsdtLength (by decide) (by decide) rfl ha.rsdtSum

theorem Heap.Ready.facsPointer_ok (hr : h.Ready A k (OnPage t) room n) :
    facsPointer ram h (t + 0xC0 + k.higherHalf) = .ok (load ram (t + 0xE4) 4) := by
  have hdsdt := hr.loadAt ram hk ht (show 0xF0 + 4 ≤ pageSize by decide)
    (show t + 0xC0 + k.higherHalf + 48 = t + 0xF0 + k.higherHalf by omega)
  have hfacs := hr.loadAt ram hk ht (show 0xE4 + 4 ≤ pageSize by decide)
    (show t + 0xC0 + k.higherHalf + 36 = t + 0xE4 + k.higherHalf by omega)
  refine (bind_of_ok hdsdt _).trans ?_
  refine (bind_of_ok hfacs _).trans ?_
  exact if_pos ha.firmwareCtrl

theorem Heap.Ready.oneLocalApic (hr : h.Ready A k (OnPage t) room n) :
    OneLocalApic (h.view ram (t + 0x80 + k.higherHalf)) := by
  have hsize : pageSize = 4096 := rfl
  have hview : ∀ i < 52, h.view ram (t + 0x80 + k.higherHalf) i = ram (t + 0x80 + i) := by
    intro i hi
    exact hr.viewAt ram hk ht (o := 0x80) (by omega) rfl
  constructor
  · rw [← ha.madtLength]
    apply load_shift
    intro i hi
    rw [hview (4 + i) (by omega), Nat.add_assoc (t + 0x80)]
  · have hflags : madtFlags (h.view ram (t + 0x80 + k.higherHalf)) = load ram (t + 0xA8) 4 := by
      apply load_shift
      intro i hi
      rw [hview (0x28 + i) (by omega), ← Nat.add_assoc]
    rw [hflags]
    exact ha.madtFlags
  · exact (hview 0x2c (by decide)).trans ha.recordType
  · exact (hview 0x2d (by decide)).trans ha.recordLength

end Checks

section AcpiPage
variable (hk : k.Regular) (hp : HhdmPlaced k.higherHalf) (ht : k.TablesAt t)
  (ha : AcpiPage ram t)
include hk hp ht ha

theorem Heap.Ready.findMadt (hr : h.Ready A k (OnPage t) room (n + 3)) :
    ∃ h', findTable A ram k.higherHalf h (t + 0x40 + k.higherHalf) "APIC" =
        .ok (t + 0x80 + k.higherHalf, h') ∧ h'.Ready A k (OnPage t) room n := by
  obtain ⟨h', hr', hfirst⟩ := hr.findEntry_turn hk hp ht (i := 0) (o := 0x80) ha.madtAddress
    (by decide) (by decide) "APIC" 1
  rw [if_pos ha.madt] at hfirst
  exact ⟨h', (hr.findTable_eq ram hk ht ha.rsdtLength "APIC").trans hfirst, hr'⟩

theorem Heap.Ready.findFadt (hr : h.Ready A k (OnPage t) room (n + 3 + 3)) :
    ∃ h', findTable A ram k.higherHalf h (t + 0x40 + k.higherHalf) "FACP" =
        .ok (t + 0xC0 + k.higherHalf, h') ∧ h'.Ready A k (OnPage t) room n := by
  obtain ⟨h₁, hr₁, hfirst⟩ := hr.findEntry_turn hk hp ht (i := 0) (o := 0x80) ha.madtAddress
    (by decide) (by decide) "FACP" 1
  rw [if_neg ha.madtOther] at hfirst
  obtain ⟨h', hr', hsecond⟩ := hr₁.findEntry_turn hk hp ht (i := 1) (o := 0xC0) ha.fadtAddress
    (by decide) (by decide) "FACP" 0
  rw [if_pos ha.fadt] at hsecond
  exact ⟨h', ((hr.findTable_eq ram hk ht ha.rsdtLength "FACP").trans hfirst).trans hsecond, hr'⟩

/-- The arrays of `parse_madt` for an MADT of 52 bytes take 80 bytes each. -/
theorem Heap.Ready.arrays_ok (hr : h.Ready A k (OnPage t) (room + l.length * 80) n)
    (hroom : 16 ≤ room) (arrays : MadtArray → Nat) : ∃ arrays' h',
    allocArrays A ram (t + 0x80 + k.higherHalf) l arrays h = .ok (arrays', h') ∧
      h'.Ready A k (OnPage t) room n ∧ ∀ a, a ∈ l ∨ arrays a ≠ 0 → arrays' a ≠ 0 := by
  induction l generalizing h arrays with
  | nil =>
    refine ⟨arrays, h, rfl, hr, fun a hmem => ?_⟩
    rcases hmem with hno | hne
    · cases hno
    · exact hne
  | cons a l ih =>
    have hload := hr.loadAt ram hk ht (show 0x84 + 4 ≤ pageSize by decide)
      (show t + 0x80 + k.higherHalf + 4 = t + 0x84 + k.higherHalf by omega)
    rw [ha.madtLength] at hload
    rw [List.length_cons, Nat.succ_mul, ← Nat.add_assoc] at hr
    obtain ⟨p, h₁, hp₁, hne, hr₁⟩ := hr.kmalloc hk hp (by omega) (show 52 ≠ 0 by decide)
      (by decide)
    obtain ⟨arrays', h', h₀, hr', hall⟩ := ih hr₁ (Function.update arrays a p)
    refine ⟨arrays', h', (bind_of_ok hload _).trans ((bind_of_ok hp₁ _).trans h₀), hr',
      fun b hmem => hall b ?_⟩
    by_cases hb : b = a
    · rw [hb, Function.update_self]
      exact .inr hne
    · rw [Function.update_of_ne hb]
      rcases hmem with hmem | hne'
      · exact .inl (List.mem_of_ne_of_mem hb hmem)
      · exact .inr hne'

/-- `parse_madt` stores the local APIC and finds no IO APIC. -/
theorem Heap.Ready.parse_ok (hr : h.Ready A k (OnPage t) (room + 7 * 80) n)
    (hroom : 16 ≤ room) (lastType : BitVec 8) : ∃ w h',
    parseMadtAt A ram lastType h (t + 0x80 + k.higherHalf) = .ok (w, h') ∧
      h'.Ready A k (OnPage t) room n ∧ w.num .ioApics = 0 := by
  obtain ⟨arrays, h', halloc, hr', hne⟩ := hr.arrays_ok hk hp ht ha (l := madtArrays) hroom
    (fun _ => 0)
  have hreads := hr'.readsAt ram hk ht (show 0xA4 + 8 ≤ pageSize by decide)
    (show t + 0x80 + k.higherHalf + 0x24 = t + 0xA4 + k.higherHalf by omega)
  have hlocal : arrays .localApics ≠ 0 := hne _ (.inl (by decide))
  have hm : OneLocalApic (h'.view ram (t + 0x80 + k.higherHalf)) := hr'.oneLocalApic hk ht ha
  obtain ⟨w, hparse, hacc, hnone⟩ := hm.parse (oldEntries h'.bytes arrays) lastType
  have hsize : pageSize = 4096 := rfl
  have hshows : ∀ i < 52, (h'.shows ram (t + 0x80 + k.higherHalf + i)).isSome := by
    intro i hi
    rw [hr'.showsAt ram hk ht (o := 0x80 + i) (by omega) (by omega)]
    rfl
  have hallowed : ∀ a ∈ (madtLoop (h'.view ram (t + 0x80 + k.higherHalf))
      (sdtLength (h'.view ram (t + 0x80 + k.higherHalf)))
      (Madt.start (oldEntries h'.bytes arrays) lastType)).accesses,
      h'.Allows ram (t + 0x80 + k.higherHalf) arrays a := by
    rw [hacc]
    refine List.forall_mem_cons.2 ⟨hlocal, List.forall_mem_cons.2 ⟨?_,
      List.forall_mem_singleton.2 ?_⟩⟩
    · intro i hi
      have hbytes : MadtArray.localApics.size = 6 := rfl
      have hi' := hshows (0x2c + 2 + i) (by omega)
      rwa [← Nat.add_assoc] at hi'
    · intro i hi
      have hi' := hshows (0x2c + i) (by omega)
      rwa [← Nat.add_assoc] at hi'
  have hlast : parseMadtAt A ram lastType h (t + 0x80 + k.higherHalf) = .ok (w, h') := by
    refine (bind_of_ok halloc _).trans ((bind_of_ok hreads _).trans ?_)
    dsimp only
    rw [if_neg fun hno => hno.2 hallowed]
    exact bind_of_ok hparse _
  exact ⟨w, h', hlast, hr', hnone⟩

theorem Heap.Ready.parseRsdt_ok (hr : h.Ready A k (OnPage t) (room + 7 * 80) (n + 12))
    (hroom : 16 ≤ room) (lastType : BitVec 8) : ∃ g h',
    parseRsdt A ram k.higherHalf lastType h (t + 0x40) = .ok (g, h') ∧
      h'.Ready A k (OnPage t) room n ∧ g.fadt ≠ 0 ∧ g.madt.num .ioApics = 0 := by
  have htop := ht.top
  have hplaced := hp.room
  have hvirt : u64 (t + 0x40 + k.higherHalf) = t + 0x40 + k.higherHalf := u64_of_lt (by omega)
  obtain ⟨h₁, hmap, hr₁⟩ := hr.mapTable hk hp ht (n := n + 9) (show 0x40 < pageSize by decide)
  obtain ⟨hsig, hsum⟩ := hr₁.rsdt_ok hk ht ha
  obtain ⟨h₂, hmadt, hr₂⟩ := hr₁.findMadt hk hp ht ha (n := n + 6)
  have hmadtSum := hr₂.checksum_ok ram hk ht ha.madtLength (by decide) (by decide) rfl ha.madtSum
  obtain ⟨w, h₃, hparse, hr₃, hnone⟩ := hr₂.parse_ok hk hp ht ha hroom lastType
  obtain ⟨h₄, hfadt, hr₄⟩ := hr₃.findFadt hk hp ht ha
  have hfadtSum := hr₄.checksum_ok ram hk ht ha.fadtLength (by decide) (by decide) rfl ha.fadtSum
  have hfacs := hr₄.facsPointer_ok hk ht ha
  have hdsdt := hr₄.loadAt ram hk ht (show 0xE8 + 4 ≤ pageSize by decide)
    (show t + 0xC0 + k.higherHalf + 40 = t + 0xE8 + k.higherHalf by omega)
  have hmadtNe : t + 0x80 + k.higherHalf ≠ 0 := by omega
  have hfadtNe : t + 0xC0 + k.higherHalf ≠ 0 := by omega
  refine ⟨⟨w, t + 0xC0 + k.higherHalf, load ram (t + 0xE4) 4⟩, h₄, ?_, hr₄, hfadtNe, hnone⟩
  rw [parseRsdt, hvirt]
  refine (bind_of_ok hmap _).trans ?_
  refine (bind_of_ok hsig _).trans ?_
  refine (bind_of_ok hsum _).trans ?_
  refine (bind_of_ok hmadt _).trans ?_
  dsimp only
  rw [if_neg hmadtNe]
  refine (bind_of_ok hmadtSum _).trans ?_
  refine (bind_of_ok hparse _).trans ?_
  refine (bind_of_ok hfadt _).trans ?_
  dsimp only
  rw [if_neg hfadtNe]
  refine (bind_of_ok hfadtSum _).trans ?_
  refine (bind_of_ok hfacs _).trans ?_
  exact bind_of_ok hdsdt _

/-- `bootstrap_acpi` maps the page of the tables and leaves nothing else to map. -/
theorem Heap.Ready.bootstrapAcpi_ok (hr : h.Ready A k seen (room + 7 * 80) (n + 15))
    (hroom : 16 ≤ room) (hram : pl.ram = ram) (hrsdp : pl.rsdp = some t) (hne : t ≠ 0) :
    ∃ g h', bootstrapAcpi A k.higherHalf pl h = .ok (g, h') ∧ g.fadt ≠ 0 ∧
      g.madt.num .ioApics = 0 := by
  have htop := ht.top
  have hplaced := hp.room
  have hvirt : u64 (t + k.higherHalf) = t + k.higherHalf := u64_of_lt (by omega)
  have hget : getRsdp pl.rsdp = some t := by
    rw [hrsdp, getRsdp, if_pos hne]
  have hpage : OnPage t t := pageOf_of_dvd ht.aligned
  obtain ⟨h₁, hmap, hr₁⟩ := hr.mapDirect hk hp (n := n + 12) (ht.shown t hpage)
    (show pteGetAddr acpiFlags = 0 by decide)
  have hr₂ : h₁.Ready A k (OnPage t) (room + 7 * 80) (n + 12) :=
    hr₁.mono fun a ha => .inr (ha.trans hpage.symm)
  have hcheck := hr₂.checkRsdp_ok hk ht ha
  obtain ⟨g, h', hparse, _, hfadt, hnone⟩ := hr₂.parseRsdt_ok hk hp ht ha hroom pl.lastType
  refine ⟨g, h', ?_, hfadt, hnone⟩
  rw [bootstrapAcpi, hget]
  refine (bind_of_ok hmap _).trans ?_
  dsimp only
  rw [hvirt, hram]
  exact (bind_of_ok hcheck _).trans hparse

end AcpiPage

/-- The heap is one free block again after its test. -/
theorem setupHeap_ready (hk : k.Regular) (hp : HhdmPlaced k.higherHalf)
    (hfb : k.FramebufferPlaced) (hv : setupVmm A k ⟨mem, s, []⟩ = .ok (root, v))
    (hl : A.Lasts (n + 256 * 4) v.frames) (bytes : Mem) : ∃ h₀ p h₁ h₂,
    setupHeap A k.higherHalf (Heap.initial v root bytes) = .ok h₀ ∧
      kmalloc A h₀ 6144 = .ok (p, h₁) ∧ kfree h₁ p = .ok h₂ ∧
      h₂.Ready A k (fun _ => False) (256 * pageSize) n := by
  obtain ⟨h₀, hheap, hsize, hleft⟩ := setupHeap_lasts hp hl root bytes
  obtain ⟨⟨l, hi⟩, _, hpos⟩ := setupHeap_inv hp hheap
  obtain ⟨M, _, hd, _⟩ := setupHeap_direct hk hp hfb hv hheap
  have hwhole := hi.tiling.eq_whole (Nat.lt_add_of_pos_right hpos)
  rw [Nat.add_sub_cancel_left] at hwhole
  rw [hwhole] at hi
  have hroom : totalSize 6144 + 16 ≤ h₀.heapSize := by
    rw [hsize]
    decide
  obtain ⟨p, h₁, hmalloc, _, hvmm, hsize₁, hi₁⟩ :=
    hi.kmalloc_split (by decide) (by decide) hroom
  obtain ⟨h₂, hfree, ⟨l₂, hi₂⟩, hkeep⟩ := hi₁.of_kfree List.mem_cons_self
  have hdropped : dropped p [(p, 6144)] = [] := by
    rw [dropped, List.filter_eq_nil_iff]
    intro e he
    rw [List.mem_singleton.1 he, decide_eq_true_eq]
    exact fun hno => hno rfl
  rw [hdropped] at hi₂
  have hsize₂ : h₂.heapSize = h₀.heapSize := (kfree_edits hfree).size.trans hsize₁
  have hwhole₂ := hi₂.tiling.eq_whole (by omega)
  rw [Nat.add_sub_cancel_left] at hwhole₂
  rw [hwhole₂] at hi₂
  obtain ⟨M₁, hd₁, _⟩ := hd.kept hk hp (kmalloc_keepsBacked hmalloc)
  obtain ⟨M₂, hd₂, _⟩ := hd₁.kept hk hp (kfree_keepsBacked hfree)
  refine ⟨h₀, p, h₁, h₂, hheap, hmalloc, hfree, ⟨M₂, hd₂, fun _ _ hno => hno.elim⟩,
    ⟨_, _, hi₂, ?_⟩, ?_⟩
  · rw [← hsize]
    exact Nat.le_of_eq hsize₂.symm
  · rw [(kfree_edits hfree).vmm, hvmm]
    exact hleft

theorem getApic_enabled (h : data.getLsbD 11 = true) : ∃ apic, getApic data = .ok apic := by
  have hon : ¬data.getLsbD 11 = false := by
    rw [h]
    exact Bool.noConfusion
  exact ⟨_, (if_neg fun hno => hon hno.1).trans (if_neg hon)⟩

theorem Heap.Ready.bootstrapApic_ok (hk : k.Regular) (hp : HhdmPlaced k.higherHalf)
    (hr : h.Ready A k seen room (n + 3)) (hb : pl.ApicBoots) (hs : k.Shown pl.apicAddress) :
    ∃ h', bootstrapApic A k.higherHalf pl h = .ok h' ∧
      h'.Ready A k (fun _ => False) room n := by
  obtain ⟨apic, hget⟩ := getApic_enabled hb.enabled
  obtain ⟨h', hmap, hr'⟩ := hr.mapDirect hk hp hs (show pteGetAddr apicFlags = 0 by decide)
  rw [Platform.apicAddress, ← getApic_address hget] at hmap
  refine ⟨h', ?_, hr'.mono fun _ hno => hno.elim⟩
  refine (bind_of_ok hget _).trans ?_
  refine (bind_of_ok hmap _).trans ?_
  dsimp only
  exact (if_neg hb.version).trans (if_neg (not_not.2 hb.spurious))

/-- With these tables and enough frames the boot comes to its end, and no IO APIC is mapped. -/
theorem boot_completes (hk : k.Regular) (hp : HhdmPlaced k.higherHalf)
    (hfb : k.FramebufferPlaced) (ht : k.TablesAt t) (ha : AcpiPage pl.ram t) (hb : pl.ApicBoots)
    (hs : k.Shown pl.apicAddress) (hrsdp : pl.rsdp = some t) (hne : t ≠ 0)
    (hv : setupVmm A k ⟨mem, s, []⟩ = .ok (root, v)) (hl : A.Lasts (18 + 256 * 4) v.frames)
    (stack : RedirectionEntry) (bytes : Mem) : ∃ b,
    boot A k pl stack ⟨mem, s, []⟩ bytes = .ok b ∧ b.acpi.fadt ≠ 0 ∧
      b.acpi.madt.ioApicWindows = [] := by
  obtain ⟨h₀, p, h₁, h₂, hheap, hmalloc, hfree, hr₂⟩ := setupHeap_ready hk hp hfb hv hl bytes
  obtain ⟨h₃, hapic, hr₃⟩ := hr₂.bootstrapApic_ok hk hp hb hs (n := 15)
  have hr₄ : h₃.Ready A k (fun _ => False) (256 * pageSize - 7 * 80 + 7 * 80) (0 + 15) := hr₃
  obtain ⟨g, h₄, hacpi, hfadt, hnone⟩ := hr₄.bootstrapAcpi_ok hk hp ht ha (by decide) rfl hrsdp hne
  have hio : setupIoApic A k.higherHalf pl stack g.madt h₄ = .ok ([], h₄) := by
    rw [setupIoApic, hnone]
    rfl
  refine ⟨⟨g, [], h₄⟩, ?_, hfadt, ?_⟩
  · refine (bind_of_ok hv _).trans ?_
    refine (bind_of_ok hheap _).trans ?_
    refine (bind_of_ok hmalloc _).trans ?_
    refine (bind_of_ok hfree _).trans ?_
    refine (bind_of_ok hapic _).trans ?_
    refine (bind_of_ok hacpi _).trans ?_
    exact bind_of_ok hio _
  · rw [Madt.ioApicWindows, hnone]
    rfl

end AdaOS
