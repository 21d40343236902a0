import AdaOS.PmmSafety
import AdaOS.Frames

namespace AdaOS
set_option autoImplicit true

variable {b : BootInfo} {s s' : Pmm} {live : List (Nat × Nat)}

/-- A state of the physical allocator in which each live page owns a set bit of its own. -/
structure OwnedPmm (b : BootInfo) where
  pmm : Pmm
  live : List (Nat × Nat)
  owned : PmmOwned b pmm live

/-- The maps on which every page handed out is a page of free memory and no page is handed out
twice. -/
structure SoundMap (b : BootInfo) : Prop where
  admissible : Admissible b
  agree : WindowsAgree b
  inRam : WindowsInRam b

theorem SoundMap.page (hb : SoundMap b) (hp : Placed b i p) :
    4096 ∣ p ∧ p ≠ 0 ∧ p < 2 ^ 52 := by
  obtain ⟨ha, hlow⟩ := hb.admissible.placed_facts hp
  obtain ⟨c, hc, _, htop⟩ := hb.inRam i p hp
  have hphys := (hb.admissible.chunk_regular c hc).physical
  simp only [pageSize] at *
  omega

def SoundMap.frame (hb : SoundMap b) (hp : Placed b i p) : Frame where
  addr := BitVec.ofNat 64 p
  nonzero := by
    obtain ⟨_, hz, hlt⟩ := hb.page hp
    intro he
    have hn := congrArg BitVec.toNat he
    rw [BitVec.toNat_ofNat, Nat.mod_eq_of_lt (by omega)] at hn
    exact hz hn
  aligned := by
    obtain ⟨hd, _, hlt⟩ := hb.page hp
    have hphys : (BitVec.ofNat 64 p).toNat < 2 ^ 52 := by
      rw [BitVec.toNat_ofNat]
      omega
    have hbase := pageBase_addr hphys
    rwa [pageBase_of_dvd hd] at hbase

theorem SoundMap.ofNat_inj (hb : SoundMap b) (hp : Placed b i p) (hq : Placed b j q)
    (h : BitVec.ofNat 64 p = BitVec.ofNat 64 q) : p = q := by
  have hpl := (hb.page hp).2.2
  have hql := (hb.page hq).2.2
  have hn := congrArg BitVec.toNat h
  rwa [BitVec.toNat_ofNat, BitVec.toNat_ofNat, Nat.mod_eq_of_lt (by omega),
    Nat.mod_eq_of_lt (by omega)] at hn

theorem PmmOwned.placed_last (h : PmmOwned b s live) (ha : ppAlloc b s = .ok (p, s'))
    (hp : p ≠ 0) : Placed b s'.lastPageUsed p ∧ PmmOwned b s' ((p, s'.lastPageUsed) :: live) := by
  obtain ⟨i, _, hi, rfl, hpl, _⟩ := h.inv.alloc ha hp
  exact ⟨hpl, h.alloc ha hp hi⟩

def OwnedPmm.alloc (hb : SoundMap b) (x : OwnedPmm b) :
    Except Fault (Option Frame × OwnedPmm b) :=
  match h : ppAlloc b x.pmm with
  | .error e => .error e
  | .ok (p, s) =>
    if hp : p = 0 then .ok (none, ⟨s, x.live, x.owned.refused (hp ▸ h)⟩)
    else .ok (some (hb.frame (x.owned.placed_last h hp).1),
      ⟨s, (p, s.lastPageUsed) :: x.live, (x.owned.placed_last h hp).2⟩)

/-- The live page at an address, if there is one. -/
def OwnedPmm.find (x : OwnedPmm b) (addr : BitVec 64) : Option {e : Nat × Nat // e ∈ x.live} :=
  x.live.attach.find? fun e => BitVec.ofNat 64 e.1.1 = addr

/-- `pp_free` of a live page. No caller passes another pointer, and none is looked at here. -/
def OwnedPmm.free (hb : SoundMap b) (x : OwnedPmm b) (addr : BitVec 64) : OwnedPmm b :=
  match x.find addr with
  | none => x
  | some e =>
    match h : ppFree x.pmm e.1.1 with
    | .error _ => x
    | .ok s => ⟨s, x.live.erase e.1, x.owned.free hb.admissible hb.agree e.2 h⟩

def OwnedPmm.held (x : OwnedPmm b) : Finset (BitVec 64) :=
  (x.live.map fun e => BitVec.ofNat 64 e.1).toFinset

theorem OwnedPmm.mem_held {x : OwnedPmm b} :
    a ∈ x.held ↔ ∃ e ∈ x.live, BitVec.ofNat 64 e.1 = a := by
  rw [OwnedPmm.held, List.mem_toFinset, List.mem_map]

theorem OwnedPmm.held_le (hb : SoundMap b) (x : OwnedPmm b) : x.held.card ≤ maxPages := by
  have hsub : (x.live.map Prod.snd).toFinset ⊆ Finset.range maxPages := by
    intro i hi
    rw [List.mem_toFinset, List.mem_map] at hi
    obtain ⟨e, he, rfl⟩ := hi
    exact Finset.mem_range.2 (hb.agree.drawable (x.owned.inv.live e he).1).2.1
  have hcard := Finset.card_le_card hsub
  rw [List.toFinset_card_of_nodup x.owned.nodup, List.length_map, Finset.card_range] at hcard
  have hle := List.toFinset_card_le (x.live.map fun e => BitVec.ofNat 64 e.1)
  rw [List.length_map] at hle
  exact hle.trans hcard

theorem OwnedPmm.eq_of_addr (hb : SoundMap b) (x : OwnedPmm b) {e e' : Nat × Nat}
    (he : e ∈ x.live) (he' : e' ∈ x.live)
    (h : BitVec.ofNat 64 e.1 = BitVec.ofNat 64 e'.1) : e = e' := by
  have hptr := hb.ofNat_inj (x.owned.inv.live e he) (x.owned.inv.live e' he') h
  have hidx := x.owned.same_index hb.agree (x.owned.inv.live e he) (p := e.1) (j := e'.2)
    (by rw [hptr]; exact he')
  exact Prod.ext hptr hidx

theorem OwnedPmm.free_eq (hb : SoundMap b) (x : OwnedPmm b) {e : Nat × Nat} (he : e ∈ x.live) :
    (x.free hb (BitVec.ofNat 64 e.1)).live = x.live.erase e := by
  have hfind : x.find (BitVec.ofNat 64 e.1) = some ⟨e, he⟩ := by
    cases hf : x.find (BitVec.ofNat 64 e.1) with
    | none =>
      rw [OwnedPmm.find, List.find?_eq_none] at hf
      exact (hf ⟨e, he⟩ (List.mem_attach ..) (by simp)).elim
    | some e' =>
      have hsame := List.find?_some hf
      rw [decide_eq_true_iff] at hsame
      congr 1
      exact Subtype.ext (x.eq_of_addr hb e'.2 he hsame)
  obtain ⟨c, _, hfree⟩ := x.owned.ppFree_eq hb.admissible hb.agree he
  rw [OwnedPmm.free, hfind]
  simp only
  split
  · next herr =>
    rw [hfree] at herr
    cases herr
  · rfl

/-- The physical allocator of `pmm.c` is a frame allocator on the maps where it is sound. -/
def pmmFrames (hb : SoundMap b) : FrameAllocator (OwnedPmm b) where
  alloc := OwnedPmm.alloc hb
  free := OwnedPmm.free hb
  held := OwnedPmm.held
  held_le := OwnedPmm.held_le hb
  alloc_some := by
    intro x f x' h
    rw [OwnedPmm.alloc] at h
    split at h
    · cases h
    · next p s ha =>
      split at h
      · cases h
      · next hp =>
        cases h
        constructor
        · intro hm
          obtain ⟨e, he, hea⟩ := OwnedPmm.mem_held.1 hm
          have hpe := hb.ofNat_inj (x.owned.inv.live e he) (x.owned.placed_last ha hp).1 hea
          exact x.owned.not_live hb.agree ha hp (List.mem_map.2 ⟨e, he, hpe⟩)
        · rw [OwnedPmm.held, OwnedPmm.held, List.map_cons, List.toFinset_cons]
          rfl
  alloc_none := by
    intro x x' h
    rw [OwnedPmm.alloc] at h
    split at h
    · cases h
    · split at h
      · cases h
        rfl
      · cases h
  free_held := by
    intro x a ha
    obtain ⟨e, he, rfl⟩ := OwnedPmm.mem_held.1 ha
    ext a
    rw [Finset.mem_erase, OwnedPmm.mem_held, OwnedPmm.mem_held, x.free_eq hb he]
    have hnodup : x.live.Nodup := .of_map _ x.owned.nodup
    constructor
    · rintro ⟨e', he', rfl⟩
      rw [hnodup.mem_erase_iff] at he'
      exact ⟨fun hsame => he'.1 (x.eq_of_addr hb he'.2 he hsame), e', he'.2, rfl⟩
    · rintro ⟨hne, e', he', rfl⟩
      refine ⟨e', hnodup.mem_erase_iff.2 ⟨?_, he'⟩, rfl⟩
      rintro rfl
      exact hne rfl

/-- A climb through the first window still has the frames of the indices ahead. -/
theorem Climb.lasts (hb : SoundMap b) (x : OwnedPmm b) (h : Climb b x.pmm k top)
    (hm : b.mappings = m :: ms) (hn : k + n ≤ top) (ht : top < maxPages)
    (htop : top < b.physicalBase / pageSize)
    (hh : ∀ i, k < i → i ≤ k + n → m.holdsIndex i = true) : (pmmFrames hb).Lasts n x := by
  have hbase : b.physicalBase / pageSize ≤ b.physicalBase := Nat.div_le_self _ _
  induction n generalizing k x with
  | zero => trivial
  | succ n ih =>
    have hheld := hh (k + 1) (Nat.lt_succ_self k) (by omega)
    have halloc := h.ppAlloc_eq (by omega) ht (by omega) (h.search_zero hm hheld)
    have hreg := hb.admissible.mapping_regular m (by rw [hm]; exact List.mem_cons_self ..)
    have hlow := hreg.low_lt_ptrOf hheld
    have hne : m.ptrOf (k + 1) ≠ 0 := by omega
    obtain ⟨hpl, ho⟩ := x.owned.placed_last halloc hne
    refine ⟨hb.frame hpl, ⟨_, _, ho⟩, ?_, ?_⟩
    · change OwnedPmm.alloc hb x = _
      rw [OwnedPmm.alloc]
      split
      · next herr =>
        rw [halloc] at herr
        cases herr
      · next p s hok =>
        rw [halloc] at hok
        cases hok
        rw [dif_neg hne]
    · exact ih ⟨_, _, ho⟩ (h.next (by omega) ht htop) (by omega)
        fun i hi hle => hh i (by omega) (by omega)

theorem oneChunk_sound : SoundMap oneChunk := ⟨oneChunk_admissible, oneChunk_agree, oneChunk_in_ram⟩

theorem SoundMap.frames_one (hb : SoundMap b) (hm : b.mappings = [⟨0x1000000, 0, 65536⟩])
    (hs : setupPmm b ram = .ok (0x1002000, s)) (hc : Climb b s 2 65535)
    (htop : 65535 < b.physicalBase / pageSize) :
    ∃ x : OwnedPmm b, x.pmm = s ∧ 0x1002000 ∈ x.held ∧ (pmmFrames hb).Lasts 65533 x := by
  refine ⟨⟨s, _, setupPmm_owned hb.admissible hs⟩, rfl, ?_, ?_⟩
  · rw [OwnedPmm.mem_held]
    exact ⟨_, List.mem_cons_self .., rfl⟩
  · apply hc.lasts hb ⟨s, _, setupPmm_owned hb.admissible hs⟩ hm (by decide) (by decide) htop
    intro i hi hle
    exact holdsIndex_iff.2 ⟨Nat.zero_lt_of_lt hi, Nat.lt_succ_of_le hle⟩

theorem oneChunk_frames : ∃ x : OwnedPmm oneChunk, 0x1002000 ∈ x.held ∧
    (pmmFrames oneChunk_sound).Lasts 65533 x := by
  obtain ⟨s, hs, hclimb⟩ := oneChunk_setup fun _ => 0
  obtain ⟨x, _, hx⟩ := oneChunk_sound.frames_one oneChunk_mappings hs hclimb (by decide)
  exact ⟨x, hx⟩

end AdaOS
