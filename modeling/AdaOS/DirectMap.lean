import AdaOS.Boot
import AdaOS.HeapBacking

namespace AdaOS
set_option autoImplicit true
open ByteMem

def pageOf (a : Nat) : Nat := a / pageSize * pageSize

/-- The page number of the alias that the direct map gives a physical address. -/
def KernelLayout.directPage (k : KernelLayout) (a : Nat) : BitVec 36 :=
  pageNumber (BitVec.ofNat 64 (a + k.higherHalf))

/-- The direct map can show an address: its alias exists and is off the kernel image and off the
pages the heap may grow to. -/
structure KernelLayout.Shown (k : KernelLayout) (a : Nat) : Prop where
  lt : a + k.higherHalf < 2 ^ 64
  apart : ¬k.ImagePage (pageOf a + k.higherHalf)
  clear : a < 0x10000000000 ∨ 0x10000000000 + pageSize * maxPages ≤ a

/-- Every alias that is mapped shows its own physical page. -/
def KernelLayout.Identity (k : KernelLayout) (M : PageMap) : Prop :=
  ∀ a, k.Shown a → ∀ e, M (k.directPage a) = some e → e.1 = BitVec.ofNat 64 (pageOf a)

/-- What a list of mappings, each of an address to its alias, makes of the entry of the page
`p`: the last one counts. -/
def repaint (p : Nat) : List (Nat × BitVec 64) → Option (BitVec 64 × BitVec 64) →
    Option (BitVec 64 × BitVec 64)
  | [], e => e
  | x :: l, e =>
    repaint p l (if pageOf x.1 = p then some (BitVec.ofNat 64 p, x.2 ||| ptePresent) else e)

/-- An entry for the page `p` itself that lets it be written. -/
def WritableEntry (p : Nat) (e : Option (BitVec 64 × BitVec 64)) : Prop :=
  ∃ flags, e = some (BitVec.ofNat 64 p, flags) ∧ hasFlag flags pteWritable = true

/-- The aliases that were mapped have been mapped anew by the list, and in no other way. -/
def Overlay (k : KernelLayout) (l : List (Nat × BitVec 64)) (M M' : PageMap) : Prop :=
  ∀ a, k.Shown a → M (k.directPage a) ≠ none →
    M' (k.directPage a) = repaint (pageOf a) l (M (k.directPage a))

/-- The framebuffer's address is an alias too, with room for all of its pages. -/
structure KernelLayout.FramebufferPlaced (k : KernelLayout) : Prop where
  base : k.higherHalf ≤ k.fbAddress
  top : k.fbAddress + k.fbPages * pageSize < 2 ^ 64

/-- The kernel after `setup_heap`: a heap in its place and a direct map that tells the truth. -/
structure Heap.Direct (A : FrameAllocator σ) (k : KernelLayout) (h : Heap σ) (M : PageMap) :
    Prop where
  backed : ∃ n, h.Backed A n M
  start : h.heapStart = k.higherHalf + 0x10000000000
  identity : k.Identity M

variable {σ : Type} {A : FrameAllocator σ} {v v' : Vmm σ} {h h' : Heap σ} {root : BitVec 64}
  {k : KernelLayout} {M M' M'' : PageMap} {l l' : List (Nat × BitVec 64)}

theorem pageOf_le (a : Nat) : pageOf a ≤ a := Nat.div_mul_le_self a pageSize

theorem pageOf_dvd (a : Nat) : pageSize ∣ pageOf a := Nat.dvd_mul_left ..

theorem pageOf_of_dvd (h : pageSize ∣ a) : pageOf a = a := Nat.div_mul_cancel h

theorem pageBase_ofNat (a : Nat) : pageBase (BitVec.ofNat 64 a) = BitVec.ofNat 64 (pageOf a) := by
  apply BitVec.eq_of_toNat_eq
  rw [pageBase_toNat, BitVec.toNat_ofNat, BitVec.toNat_ofNat, pageOf, pageSize]
  omega

theorem directPage_eq_iff (hk : k.Regular) (ha : a + k.higherHalf < 2 ^ 64)
    (hb : b + k.higherHalf < 2 ^ 64) : k.directPage a = k.directPage b ↔ pageOf a = pageOf b := by
  have hd := hk.higherHalf
  have hu := hk.hhdmUpper
  rw [KernelLayout.directPage, KernelLayout.directPage, ← BitVec.toNat_inj, pageNumber_toNat,
    pageNumber_toNat, BitVec.toNat_ofNat, BitVec.toNat_ofNat]
  simp only [pageOf, pageSize] at *
  omega

theorem heapPage_eq (k : KernelLayout) (i : Nat) :
    heapPage (k.higherHalf + 0x10000000000) i =
      k.directPage (0x10000000000 + i * pageSize) := by
  rw [heapPage, KernelLayout.directPage]
  congr 2
  omega

theorem directPage_ne_heapPage (hk : k.Regular) (hp : HhdmPlaced k.higherHalf)
    (hlt : a + k.higherHalf < 2 ^ 64)
    (hc : a < 0x10000000000 ∨ 0x10000000000 + pageSize * maxPages ≤ a) (hi : i < maxPages) :
    k.directPage a ≠ heapPage (k.higherHalf + 0x10000000000) i := by
  have hroom := hp.room
  rw [heapPage_eq, Ne, directPage_eq_iff hk hlt]
  · simp only [pageOf, pageSize, maxPages] at *
    omega
  · simp only [pageSize, maxPages] at *
    omega

theorem KernelLayout.Shown.offHeap (hs : k.Shown a) (hk : k.Regular)
    (hp : HhdmPlaced k.higherHalf) (n : Nat) :
    OffHeap (k.higherHalf + 0x10000000000) n (BitVec.ofNat 64 (a + k.higherHalf)) :=
  fun _ _ hi => directPage_ne_heapPage hk hp hs.lt hs.clear hi

theorem KernelLayout.Identity.update (hid : k.Identity M) (hk : k.Regular)
    (hlt : a + k.higherHalf < 2 ^ 64) :
    k.Identity (Function.update M (k.directPage a)
      (some (pageBase (BitVec.ofNat 64 a), flags))) := by
  intro b hs e he
  by_cases hsame : k.directPage b = k.directPage a
  · rw [hsame, Function.update_self] at he
    cases he
    rw [pageBase_ofNat, (directPage_eq_iff hk hs.lt hlt).1 hsame]
  · rw [Function.update_of_ne hsame] at he
    exact hid b hs e he

theorem repaint_append : repaint p (l ++ l') e = repaint p l' (repaint p l e) := by
  induction l generalizing e with
  | nil => rfl
  | cons x l ih => exact ih

theorem repaint_ne_none (he : e ≠ none) : repaint p l e ≠ none := by
  induction l generalizing e with
  | nil => exact he
  | cons x l ih =>
    apply ih
    split
    · exact Option.some_ne_none _
    · exact he

theorem repaint_of_ne (h : ∀ x ∈ l, pageOf x.1 ≠ p) : repaint p l e = e := by
  induction l with
  | nil => rfl
  | cons x l ih =>
    obtain ⟨hx, hl⟩ := List.forall_mem_cons.1 h
    rw [repaint, if_neg hx]
    exact ih hl

theorem repaint_same (hf : ∀ y ∈ l, y.2 = flags) :
    repaint p l (some (BitVec.ofNat 64 p, flags ||| ptePresent)) =
      some (BitVec.ofNat 64 p, flags ||| ptePresent) := by
  induction l with
  | nil => rfl
  | cons y l ih =>
    obtain ⟨hy, hl⟩ := List.forall_mem_cons.1 hf
    rw [repaint, hy, ite_self]
    exact ih hl

theorem repaint_of_mem (hf : ∀ y ∈ l, y.2 = flags) (hx : x ∈ l) (hp : pageOf x.1 = p) :
    repaint p l e = some (BitVec.ofNat 64 p, flags ||| ptePresent) := by
  induction l generalizing e with
  | nil => cases hx
  | cons y l ih =>
    obtain ⟨hy, hl⟩ := List.forall_mem_cons.1 hf
    rcases List.mem_cons.1 hx with rfl | hx
    · rw [repaint, if_pos hp, hy]
      exact repaint_same hl
    · exact ih hl hx

theorem Overlay.refl : Overlay k [] M M := fun _ _ _ => rfl

theorem Overlay.trans (h₁ : Overlay k l M M') (h₂ : Overlay k l' M' M'') :
    Overlay k (l ++ l') M M'' := by
  intro a hs hm
  have hfirst := h₁ a hs hm
  have hsecond := h₂ a hs (hfirst ▸ repaint_ne_none hm)
  rw [hsecond, hfirst, repaint_append]

theorem Overlay.update (hk : k.Regular) (hlt : a + k.higherHalf < 2 ^ 64) :
    Overlay k [(a, flags)] M (Function.update M (k.directPage a)
      (some (pageBase (BitVec.ofNat 64 a), flags ||| ptePresent))) := by
  intro b hs _
  rw [repaint, repaint]
  by_cases hsame : pageOf a = pageOf b
  · rw [if_pos hsame, (directPage_eq_iff hk hs.lt hlt).2 hsame.symm, Function.update_self,
      pageBase_ofNat, hsame]
  · rw [if_neg hsame, Function.update_of_ne]
    exact fun he => hsame ((directPage_eq_iff hk hs.lt hlt).1 he).symm

theorem Overlay.absent (hk : k.Regular) (hlt : a + k.higherHalf < 2 ^ 64)
    (hm : M (k.directPage a) = none) : Overlay k [(a, flags)] M M := by
  intro b hs hb
  rw [repaint, repaint, if_neg]
  intro hsame
  rw [(directPage_eq_iff hk hs.lt hlt).2 hsame.symm] at hb
  exact hb hm

theorem KernelLayout.Identity.congr (hid : k.Identity M)
    (hsame : ∀ a, k.Shown a → M' (k.directPage a) = M (k.directPage a)) : k.Identity M' := by
  intro a hs e he
  rw [hsame a hs] at he
  exact hid a hs e he

theorem Vmm.Maps.mapAlias_cases (hm : v.Maps A root M) (hk : k.Regular)
    (hlt : a + k.higherHalf < 2 ^ 64) (hf : pteGetAddr flags = 0)
    (h₀ : mapPage A v root (BitVec.ofNat 64 (a + k.higherHalf)) (BitVec.ofNat 64 a) flags =
      .ok (r, v')) :
    ∃ M', v'.Maps A root M' ∧ ((r = true ∧ M' = Function.update M (k.directPage a)
        (some (pageBase (BitVec.ofNat 64 a), flags ||| ptePresent))) ∨
      (r = false ∧ M' = M ∧ M (k.directPage a) = none)) := by
  have hu := hk.hhdmUpper
  have hphys : (BitVec.ofNat 64 a).toNat < 2 ^ 52 := by
    rw [BitVec.toNat_ofNat]
    omega
  obtain ⟨M', hM', ⟨rfl, rfl⟩ | ⟨rfl, rfl, hnone⟩⟩ := hm.map_cases hphys hf h₀
  · exact ⟨_, hM', .inl ⟨rfl, rfl⟩⟩
  · exact ⟨_, hM', .inr ⟨rfl, rfl, hnone⟩⟩

theorem Vmm.Maps.mapAlias (hm : v.Maps A root M) (hid : k.Identity M) (hk : k.Regular)
    (hlt : a + k.higherHalf < 2 ^ 64) (hf : pteGetAddr flags = 0)
    (h₀ : mapPage A v root (BitVec.ofNat 64 (a + k.higherHalf)) (BitVec.ofNat 64 a) flags =
      .ok (r, v')) :
    ∃ M', v'.Maps A root M' ∧ k.Identity M' ∧ Overlay k [(a, flags)] M M' ∧
      (r = false → M' = M) ∧ (r = true → M' (k.directPage a) ≠ none) ∧
      ∀ q, q ≠ k.directPage a → M' q = M q := by
  obtain ⟨M', hM', ⟨rfl, rfl⟩ | ⟨rfl, rfl, hnone⟩⟩ := hm.mapAlias_cases hk hlt hf h₀
  · refine ⟨_, hM', hid.update hk hlt, .update hk hlt, (fun hr => nomatch hr), fun _ => ?_,
      fun q hq => Function.update_of_ne hq ..⟩
    rw [Function.update_self]
    exact Option.some_ne_none _
  · exact ⟨M', hM', hid, .absent hk hlt hnone, fun _ => rfl, (fun hr => nomatch hr),
      fun _ _ => rfl⟩

theorem Heap.Direct.maps (hd : h.Direct A k M) : h.vmm.Maps A h.pml4 M := by
  obtain ⟨n, hb⟩ := hd.backed
  exact hb.backs.maps

theorem Heap.Backed.mapped (hb : h.Backed A n M) (hm : v.Maps A h.pml4 M')
    (hheld : A.held h.vmm.frames ⊆ A.held v.frames)
    (hkeep : ∀ i < maxPages, M' (heapPage h.heapStart i) = M (heapPage h.heapStart i)) :
    { h with vmm := v }.Backed A n M' := by
  have hn := hb.stop_lt.1
  have hsame : ∀ i < n, M' (heapPage h.heapStart i) = M (heapPage h.heapStart i) :=
    fun i hi => hkeep i (Nat.lt_of_lt_of_le hi hn)
  refine ⟨⟨hm, hb.backs.count.trans (Finset.card_le_card hheld), ?_, ?_⟩, hb.size, hb.aligned,
    hb.bounded⟩
  · intro i hi
    obtain ⟨f, hf, he⟩ := hb.backs.frame i hi
    exact ⟨f, hheld hf, (hsame i hi).trans he⟩
  · intro i hi j hj he
    apply hb.backs.apart i hi j hj
    rw [← hsame i hi, he, hsame j hj]

theorem Heap.Direct.mapDirect_keeps (hd : h.Direct A k M) (hk : k.Regular)
    (hp : HhdmPlaced k.higherHalf) (hlt : a + k.higherHalf < 2 ^ 64)
    (hc : a < 0x10000000000 ∨ 0x10000000000 + pageSize * maxPages ≤ a)
    (hf : pteGetAddr flags = 0) (h₀ : h.mapDirect A k.higherHalf a flags = .ok (r, h')) :
    ∃ M', h'.Direct A k M' ∧ Overlay k [(a, flags)] M M' ∧ (r = false → M' = M) ∧
      (r = true → M' (k.directPage a) ≠ none) ∧ ∀ q, q ≠ k.directPage a → M' q = M q := by
  obtain ⟨⟨x, w⟩, hm, h₀⟩ := bind_ok h₀
  cases h₀
  obtain ⟨n, hb⟩ := hd.backed
  have hmaps := hb.backs.maps
  obtain ⟨M', hM', hid, hover, hfail, hdone, hkeep⟩ :=
    hmaps.mapAlias hd.identity hk hlt hf hm
  have hheld := mapPage_held hm
  refine ⟨M', ⟨⟨n, hb.mapped hM' hheld fun i hi => ?_⟩, hd.start, hid⟩, hover, hfail, hdone, hkeep⟩
  rw [hd.start]
  exact hkeep _ (directPage_ne_heapPage hk hp hlt hc hi).symm

theorem Heap.Direct.mapDirect (hd : h.Direct A k M) (hk : k.Regular)
    (hp : HhdmPlaced k.higherHalf) (hlt : a + k.higherHalf < 2 ^ 64)
    (hc : a < 0x10000000000 ∨ 0x10000000000 + pageSize * maxPages ≤ a)
    (hf : pteGetAddr flags = 0) (h₀ : h.mapDirect A k.higherHalf a flags = .ok (r, h')) :
    ∃ M', h'.Direct A k M' ∧ Overlay k [(a, flags)] M M' ∧ (r = false → M' = M) ∧
      (r = true → M' (k.directPage a) ≠ none) := by
  obtain ⟨M', hM', hover, hfail, hdone, _⟩ := hd.mapDirect_keeps hk hp hlt hc hf h₀
  exact ⟨M', hM', hover, hfail, hdone⟩

theorem Heap.Direct.kept_same (hd : h.Direct A k M) (hk : k.Regular)
    (hp : HhdmPlaced k.higherHalf) (hkeep : KeepsBacked A h h') : ∃ M', h'.Direct A k M' ∧
      ∀ a, k.Shown a → M' (k.directPage a) = M (k.directPage a) := by
  obtain ⟨n, hb⟩ := hd.backed
  obtain ⟨⟨n', M', hb'⟩, he⟩ := hkeep ⟨n, M, hb⟩
  have hsame : ∀ a, k.Shown a → M' (k.directPage a) = M (k.directPage a) := by
    intro a hs
    have hoff := hs.offHeap hk hp (h.heapSize / pageSize)
    rw [← hd.start] at hoff
    have ht := he.translate _ hoff
    rw [hb'.backs.maps.translate, hb.backs.maps.translate] at ht
    exact ht
  exact ⟨M', ⟨⟨n', hb'⟩, he.start.trans hd.start, hd.identity.congr hsame⟩, hsame⟩

theorem Heap.Direct.kept (hd : h.Direct A k M) (hk : k.Regular) (hp : HhdmPlaced k.higherHalf)
    (hkeep : KeepsBacked A h h') : ∃ M', h'.Direct A k M' ∧ Overlay k [] M M' := by
  obtain ⟨M', hM', hsame⟩ := hd.kept_same hk hp hkeep
  exact ⟨M', hM', fun a hs _ => hsame a hs⟩

def fbFlags : BitVec 64 := ptePresent ||| pteWritable ||| ptePcd ||| ptePat

theorem WritableEntry.update (he : WritableEntry p (M (k.directPage p))) (hk : k.Regular)
    (hp : pageSize ∣ p) (hlt : p + k.higherHalf < 2 ^ 64) (hlt' : a + k.higherHalf < 2 ^ 64)
    (hw : hasFlag flags pteWritable = true) : WritableEntry p (Function.update M (k.directPage a)
      (some (pageBase (BitVec.ofNat 64 a), flags)) (k.directPage p)) := by
  by_cases hsame : k.directPage p = k.directPage a
  · have hpage := (directPage_eq_iff hk hlt hlt').1 hsame
    rw [pageOf_of_dvd hp] at hpage
    rw [hsame, Function.update_self, pageBase_ofNat, ← hpage]
    exact ⟨_, rfl, hw⟩
  · rwa [Function.update_of_ne hsame]

theorem mapFramebuffer_direct (hm : v.Maps A root M) (hid : k.Identity M) (hk : k.Regular)
    (hvirt : virt = a + k.higherHalf) (htop : virt + n * pageSize ≤ 2 ^ 64)
    (h₀ : mapFramebuffer A root virt a n v = .ok v') :
    ∃ M', v'.Maps A root M' ∧ k.Identity M' ∧ ∀ p, pageSize ∣ p → p + k.higherHalf < 2 ^ 64 →
      WritableEntry p (M (k.directPage p)) → WritableEntry p (M' (k.directPage p)) := by
  induction n generalizing virt a v M with
  | zero =>
    cases h₀
    exact ⟨M, hm, hid, fun _ _ _ he => he⟩
  | succ n ih =>
    obtain ⟨⟨r, w⟩, hstep, h₀⟩ := bind_ok h₀
    have hpos : 0 < pageSize := by decide
    rw [Nat.succ_mul] at htop
    rw [hvirt] at hstep
    have hlt : a + k.higherHalf < 2 ^ 64 := by omega
    obtain ⟨M₁, hM₁, ⟨_, rfl⟩ | ⟨_, rfl, _⟩⟩ :=
      hm.mapAlias_cases hk hlt (show pteGetAddr fbFlags = 0 by decide) hstep
    · obtain ⟨M', hM', hid', hkeep⟩ := ih hM₁ (hid.update hk hlt) (by omega) (by omega) h₀
      refine ⟨M', hM', hid', fun p hp hplt he => hkeep p hp hplt ?_⟩
      exact he.update hk hp hplt hlt (by decide)
    · exact ih hM₁ hid (by omega) (by omega) h₀

theorem KernelLayout.Shown.ne_image (hs : k.Shown a) (hk : k.Regular) (hv : k.ImagePage virt) :
    k.directPage a ≠ pageNumber (BitVec.ofNat 64 virt) := by
  intro he
  have hlt := hs.lt
  have hle := pageOf_le a
  have hu := hk.hhdmUpper
  have hpage : k.directPage (pageOf a) = k.directPage a := by
    rw [directPage_eq_iff hk (by omega) hlt, pageOf_of_dvd (pageOf_dvd a)]
  have hsame := pageNumber_inj (Nat.dvd_add (pageOf_dvd a) hk.higherHalf) hv.aligned
    (by omega) (hk.kernelUpper.trans hv.base) (by omega) (hv.lt hk) (hpage.trans he)
  apply hs.apart
  rw [hsame]
  exact hv

theorem mapChunks_only (hk : k.Regular) (hpml4 : setupPml4 A ⟨mem, s, []⟩ = .ok (root, v))
    (himage : mapImage A k root v = .ok w) (hchunks : mapChunks A k root k.chunks w = .ok v') :
    ∃ M, v'.Maps A root M ∧ (∀ c ∈ k.chunks, ∀ p, c.Page p →
      M (k.directPage p) = some (BitVec.ofNat 64 p, ptePresent ||| pteWritable)) ∧
      ∀ a, k.Shown a → M (k.directPage a) ≠ none → ∃ c ∈ k.chunks, c.Page (pageOf a) := by
  obtain ⟨M₁, hM₁, _, hkeep₁⟩ := mapImage_maps hk (setupPml4_maps rfl hpml4) himage
  obtain ⟨M, hM, hset, hkeep⟩ := mapChunks_maps hk (fun c hc => hc) hM₁ hchunks
  refine ⟨M, hM, hset, fun a hs hne => ?_⟩
  by_cases hchunk : ∃ c ∈ k.chunks, ∃ p, c.Page p ∧ k.directPage a = k.directPage p
  · obtain ⟨c, hc, p, hp, hap⟩ := hchunk
    have hlt := (hk.apart c hc p hp).1
    have hsame := (directPage_eq_iff hk hs.lt (by omega)).1 hap
    rw [pageOf_of_dvd hp.aligned] at hsame
    exact ⟨c, hc, hsame.symm ▸ hp⟩
  · rw [hkeep _ fun c hc p hp hap => hchunk ⟨c, hc, p, hp, hap⟩,
      hkeep₁ _ fun virt hv => hs.ne_image hk hv] at hne
    exact (hne rfl).elim

theorem mapChunks_identity (hk : k.Regular) (hpml4 : setupPml4 A ⟨mem, s, []⟩ = .ok (root, v))
    (himage : mapImage A k root v = .ok w) (hchunks : mapChunks A k root k.chunks w = .ok v') :
    ∃ M, v'.Maps A root M ∧ k.Identity M ∧ (∀ c ∈ k.chunks, ∀ p, c.Page p →
      M (k.directPage p) = some (BitVec.ofNat 64 p, ptePresent ||| pteWritable)) ∧
      ∀ a, k.Shown a → M (k.directPage a) ≠ none → ∃ c ∈ k.chunks, c.Page (pageOf a) := by
  obtain ⟨M, hM, hset, honly⟩ := mapChunks_only hk hpml4 himage hchunks
  refine ⟨M, hM, fun a hs e he => ?_, hset, honly⟩
  have hlt := hs.lt
  have hle := pageOf_le a
  obtain ⟨c, hc, hp⟩ := honly a hs (by rw [he]; exact Option.some_ne_none e)
  have hpage : k.directPage a = k.directPage (pageOf a) := by
    rw [directPage_eq_iff hk hlt (by omega), pageOf_of_dvd (pageOf_dvd a)]
  rw [hpage, hset c hc _ hp] at he
  cases he
  rfl

/-- The framebuffer loop maps the aliases of the framebuffer and no others. -/
theorem mapFramebuffer_only (hm : v.Maps A root M) (hid : k.Identity M) (hk : k.Regular)
    (hvirt : virt = a + k.higherHalf) (htop : virt + n * pageSize ≤ 2 ^ 64)
    (h₀ : mapFramebuffer A root virt a n v = .ok v') : ∃ M', v'.Maps A root M' ∧
      ∀ b, k.Shown b → M' (k.directPage b) ≠ none →
        M (k.directPage b) ≠ none ∨ ∃ i < n, pageOf b = pageOf (a + i * pageSize) := by
  induction n generalizing virt a v M with
  | zero =>
    cases h₀
    exact ⟨M, hm, fun b _ hb => .inl hb⟩
  | succ n ih =>
    obtain ⟨⟨r, w⟩, hstep, h₀⟩ := bind_ok h₀
    have hpos : 0 < pageSize := by decide
    rw [Nat.succ_mul] at htop
    rw [hvirt] at hstep
    have hlt : a + k.higherHalf < 2 ^ 64 := by omega
    obtain ⟨M₁, hM₁, hid₁, _, _, _, hkeep⟩ :=
      hm.mapAlias hid hk hlt (show pteGetAddr fbFlags = 0 by decide) hstep
    obtain ⟨M', hM', honly⟩ := ih hM₁ hid₁ (by omega) (by omega) h₀
    refine ⟨M', hM', fun b hb hne => ?_⟩
    rcases honly b hb hne with hne | ⟨i, hi, he⟩
    · by_cases hsame : k.directPage b = k.directPage a
      · refine .inr ⟨0, Nat.succ_pos n, ?_⟩
        rw [Nat.zero_mul, Nat.add_zero]
        exact (directPage_eq_iff hk hb.lt hlt).1 hsame
      · rw [hkeep _ hsame] at hne
        exact .inl hne
    · refine .inr ⟨i + 1, Nat.succ_lt_succ hi, ?_⟩
      rw [Nat.succ_mul, Nat.add_comm (i * pageSize), ← Nat.add_assoc]
      exact he

theorem setupVmm_only (hk : k.Regular) (hfb : k.FramebufferPlaced)
    (h₀ : setupVmm A k ⟨mem, s, []⟩ = .ok (root, v)) :
    ∃ M, v.Maps A root M ∧ ∀ a, k.Shown a → M (k.directPage a) ≠ none →
      (∃ c ∈ k.chunks, c.Page (pageOf a)) ∨
      ∃ i < k.fbPages, pageOf a = pageOf (k.fbAddress - k.higherHalf + i * pageSize) := by
  obtain ⟨⟨r, w⟩, hkernel, h₀⟩ := bind_ok h₀
  obtain ⟨u, hloop, h₀⟩ := bind_ok h₀
  cases h₀
  obtain ⟨⟨r, v₁⟩, hpml4, hkernel⟩ := bind_ok hkernel
  obtain ⟨v₂, himage, hkernel⟩ := bind_ok hkernel
  obtain ⟨v₃, hchunks, hkernel⟩ := bind_ok hkernel
  cases hkernel
  obtain ⟨M₁, hM₁, hid, _, honly⟩ := mapChunks_identity hk hpml4 himage hchunks
  have htop := hfb.top
  rw [sub64_of_le hfb.base (by omega)] at hloop
  obtain ⟨M, hM, hfbOnly⟩ := mapFramebuffer_only hM₁ hid hk
    (Nat.sub_add_cancel hfb.base).symm (Nat.le_of_lt htop) hloop
  refine ⟨M, hM, fun a hs hne => ?_⟩
  rcases hfbOnly a hs hne with hne | hpage
  · exact .inl (honly a hs hne)
  · exact .inr hpage

/-- The address space `setup_vmm` leaves maps each page of a chunk to its alias, and nothing else
than physical pages to theirs. -/
theorem setupVmm_direct (hk : k.Regular) (hfb : k.FramebufferPlaced)
    (h₀ : setupVmm A k ⟨mem, s, []⟩ = .ok (root, v)) :
    ∃ M, v.Maps A root M ∧ k.Identity M ∧ ∀ c ∈ k.chunks, ∀ p, c.Page p →
      WritableEntry p (M (k.directPage p)) := by
  obtain ⟨⟨r, w⟩, hkernel, h₀⟩ := bind_ok h₀
  obtain ⟨u, hloop, h₀⟩ := bind_ok h₀
  cases h₀
  obtain ⟨⟨r, v₁⟩, hpml4, hkernel⟩ := bind_ok hkernel
  obtain ⟨v₂, himage, hkernel⟩ := bind_ok hkernel
  obtain ⟨v₃, hchunks, hkernel⟩ := bind_ok hkernel
  cases hkernel
  obtain ⟨M₁, hM₁, hid, hset, _⟩ := mapChunks_identity hk hpml4 himage hchunks
  have htop := hfb.top
  have hphys : sub64 k.fbAddress k.higherHalf = k.fbAddress - k.higherHalf :=
    sub64_of_le hfb.base (by omega)
  have hvirt : k.fbAddress = k.fbAddress - k.higherHalf + k.higherHalf :=
    (Nat.sub_add_cancel hfb.base).symm
  rw [hphys] at hloop
  obtain ⟨M, hM, hidM, hkeep⟩ :=
    mapFramebuffer_direct hM₁ hid hk hvirt (Nat.le_of_lt htop) hloop
  refine ⟨M, hM, hidM, fun c hc p hp => hkeep p hp.aligned ?_ ?_⟩
  · rw [Nat.add_comm]
    exact (hk.apart c hc p hp).1
  · exact ⟨_, hset c hc p hp, by decide⟩

end AdaOS
