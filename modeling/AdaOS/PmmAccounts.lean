import AdaOS.BitCount
import AdaOS.PmmRefusals
import AdaOS.TableBounds

namespace AdaOS
set_option autoImplicit true
open BitCount

def Pmm.held (s : Pmm) (i : Nat) : Bool := s.pageMappings.any (·.holdsIndex i)

def Pmm.usedBits (s : Pmm) : Nat := bits s.pageBitmap maxPages

def Pmm.freeBit (s : Pmm) (i : Nat) : Bool := !s.pageBitmap i && s.held i

/-- The indices that have a mapping and a clear bit. -/
def Pmm.freeBits (s : Pmm) : Nat := bits s.freeBit maxPages

/-- The counters tell the truth. -/
structure Accounted (s : Pmm) : Prop where
  used : s.usedPages = .ofNat 64 s.usedBits
  free : s.freePages = .ofNat 64 s.freeBits

/-- The bit that a call sets or clears. -/
def PmmCall.Touches (b : BootInfo) (s : Pmm) : PmmCall → Nat → Prop
  | .ppAlloc, i => NextFree b s i ∧ i < b.physicalBase
  | .ppAllocIndex j, i => i = j ∧ j < b.physicalBase ∧ j < maxPages ∧ s.pageBitmap j = false
  | .ppFree p, i =>
    (∃ s', AdaOS.ptrToPage s p = .ok (i, s')) ∧ i < maxPages ∧ s.pageBitmap i = true
  | .ppFreeIndex j, i => i = j ∧ j < maxPages ∧ s.pageBitmap j = true
  | _, _ => False

/-- The bit that a call sets or clears is that of a page with a mapping. -/
def PmmCall.Mapped (b : BootInfo) (s : Pmm) (c : PmmCall) : Prop :=
  ∀ i, c.Touches b s i → s.held i = true

/-- Runs whose calls touch no page without a mapping. -/
inductive MappedRun (b : BootInfo) (s₀ : Pmm) : Pmm → Prop where
  | start : MappedRun b s₀ s₀
  | call : MappedRun b s₀ s → c.Mapped b s → PmmCall.run b s c = .ok s' → MappedRun b s₀ s'

variable {b : BootInfo} {s s' s₀ s₁ : Pmm}

theorem Accounted.usedMemory (h : Accounted s) :
    getUsedMemory s = .ofNat 64 (s.usedBits * pageSize) := by
  rw [getUsedMemory, h.used, ← BitVec.ofNat_mul]

theorem Accounted.freeMemory (h : Accounted s) :
    getFreeMemory s = .ofNat 64 (s.freeBits * pageSize) := by
  rw [getFreeMemory, h.free, ← BitVec.ofNat_mul]

/-- By how much the counter of used pages is ahead of the bitmap. -/
def Pmm.usedDrift (s : Pmm) : BitVec 64 := s.usedPages - .ofNat 64 s.usedBits

def Pmm.freeDrift (s : Pmm) : BitVec 64 := s.freePages - .ofNat 64 s.freeBits

theorem accounted_iff : Accounted s ↔ s.usedDrift = 0 ∧ s.freeDrift = 0 := by
  have hsub (m n : BitVec 64) : m - n = 0 ↔ m = n := by bv_omega
  rw [Pmm.usedDrift, Pmm.freeDrift, hsub, hsub]
  exact ⟨fun h => ⟨h.used, h.free⟩, fun h => ⟨h.1, h.2⟩⟩

/-- A clear bit is set and the counters follow it. -/
structure Marks (s s' : Pmm) (i : Nat) : Prop where
  lt : i < maxPages
  clear : s.pageBitmap i = false
  bitmap : s'.pageBitmap = Function.update s.pageBitmap i true
  free : s'.freePages = s.freePages - 1
  used : s'.usedPages = s.usedPages + 1

/-- A set bit is cleared and the counters follow it. -/
structure Clears (s s' : Pmm) (i : Nat) : Prop where
  lt : i < maxPages
  set : s.pageBitmap i = true
  bitmap : s'.pageBitmap = Function.update s.pageBitmap i false
  free : s'.freePages = s.freePages + 1
  used : s'.usedPages = s.usedPages - 1

/-- The bitmap and the counters stay as they are. -/
structure Stays (s s' : Pmm) : Prop where
  bitmap : s'.pageBitmap = s.pageBitmap
  free : s'.freePages = s.freePages
  used : s'.usedPages = s.usedPages

theorem Pmm.held_eq (h : s'.pageMappings = s.pageMappings) : s'.held = s.held := by
  funext i
  rw [Pmm.held, Pmm.held, h]

theorem Stays.drift (h : Stays s s') (hm : s'.pageMappings = s.pageMappings) :
    s'.usedDrift = s.usedDrift ∧ s'.freeDrift = s.freeDrift := by
  have hbit : s'.freeBit = s.freeBit := by
    funext i
    rw [Pmm.freeBit, Pmm.freeBit, h.bitmap, Pmm.held_eq hm]
  rw [Pmm.usedDrift, Pmm.usedDrift, Pmm.freeDrift, Pmm.freeDrift, Pmm.usedBits, Pmm.usedBits,
    Pmm.freeBits, Pmm.freeBits, h.bitmap, h.free, h.used, hbit]
  exact ⟨rfl, rfl⟩

/-- Marking a page with no mapping leaves the free pages one short. -/
theorem Marks.drift (h : Marks s s' i) (hm : s'.pageMappings = s.pageMappings) :
    s'.usedDrift = s.usedDrift ∧
      s'.freeDrift = s.freeDrift - if s.held i = true then 0 else 1 := by
  constructor
  · rw [Pmm.usedDrift, Pmm.usedDrift, Pmm.usedBits, Pmm.usedBits, h.used, h.bitmap,
      bits_set h.lt h.clear, BitVec.ofNat_add]
    bv_omega
  · rw [Pmm.freeDrift, Pmm.freeDrift, Pmm.freeBits, Pmm.freeBits, h.free]
    by_cases hi : s.held i = true
    · have hfree : s.freeBit i = true := by
        rw [Pmm.freeBit, h.clear, hi]
        rfl
      have hbit : s'.freeBit = Function.update s.freeBit i false := by
        funext j
        rw [Pmm.freeBit, h.bitmap, Pmm.held_eq hm]
        by_cases hj : j = i
        · rw [hj, Function.update_self, Function.update_self]
          rfl
        · rw [Function.update_of_ne hj, Function.update_of_ne hj]
          rfl
      rw [hbit, if_pos hi, ← bits_clear h.lt hfree, BitVec.ofNat_add]
      bv_omega
    · have hbit : s'.freeBit = s.freeBit := by
        funext j
        rw [Pmm.freeBit, Pmm.freeBit, h.bitmap, Pmm.held_eq hm]
        by_cases hj : j = i
        · rw [hj, Bool.eq_false_iff.2 hi, Bool.and_false, Bool.and_false]
        · rw [Function.update_of_ne hj]
      rw [hbit, if_neg hi]
      bv_omega

theorem Clears.marks (h : Clears s s' i) : Marks s' s i where
  lt := h.lt
  clear := by rw [h.bitmap, Function.update_self]
  bitmap := by rw [h.bitmap, Function.update_idem, ← h.set, Function.update_eq_self]
  free := by rw [h.free, BitVec.add_sub_cancel]
  used := by rw [h.used, BitVec.sub_add_cancel]

theorem Clears.usedDrift (h : Clears s s' i) (hm : s'.pageMappings = s.pageMappings) :
    s'.usedDrift = s.usedDrift := (h.marks.drift hm.symm).1.symm

theorem Marks.freeDrift_iff (h : Marks s s' i) (hm : s'.pageMappings = s.pageMappings) :
    s'.freeDrift = s.freeDrift ↔ s.held i = true := by
  rw [(h.drift hm).2]
  by_cases hi : s.held i = true
  · rw [if_pos hi]
    exact iff_of_true (BitVec.sub_zero _) hi
  · rw [if_neg hi]
    exact iff_of_false (by bv_omega) hi

theorem Clears.freeDrift_iff (h : Clears s s' i) (hm : s'.pageMappings = s.pageMappings) :
    s'.freeDrift = s.freeDrift ↔ s.held i = true := by
  rw [eq_comm, h.marks.freeDrift_iff hm.symm, Pmm.held_eq hm]

theorem NextFree.unique (hi : NextFree b s i) (hj : NextFree b s j) : i = j := by
  obtain ⟨s₁, hi⟩ := getFreePage_iff.2 hi
  obtain ⟨s₂, hj⟩ := getFreePage_iff.2 hj
  rw [hi] at hj
  cases hj
  rfl

theorem PmmCall.Touches.unique {c : PmmCall} (hi : c.Touches b s i) (hj : c.Touches b s j) :
    i = j := by
  cases c with
  | ppAlloc => exact hi.1.unique hj.1
  | ppAllocIndex k => exact hi.1.trans hj.1.symm
  | ppFree p =>
    obtain ⟨⟨s₁, hi⟩, _⟩ := hi
    obtain ⟨⟨s₂, hj⟩, _⟩ := hj
    rw [hi] at hj
    cases hj
    rfl
  | ppFreeIndex k => exact hi.1.trans hj.1.symm
  | pageToPtr k => exact hi.elim
  | ptrToPage p => exact hi.elim
  | getFreePage => exact hi.elim

theorem PmmCall.Touches.mapped_iff {c : PmmCall} (hi : c.Touches b s i) :
    c.Mapped b s ↔ s.held i = true :=
  ⟨fun h => h i hi, fun h _ hj => hi.unique hj ▸ h⟩

/-- What a call that returns does: it touches no bit, it marks the one it touches or it clears
it. -/
inductive PmmCall.Effect (b : BootInfo) (s s' : Pmm) (c : PmmCall) : Prop where
  | stays : (∀ i, ¬c.Touches b s i) → Stays s s' → Effect b s s' c
  | marks : c.Touches b s i → Marks s s' i → Effect b s s' c
  | clears : c.Touches b s i → Clears s s' i → Effect b s s' c

theorem ppAllocIndex_effect (h : ppAllocIndex b s i = .ok (p, s')) :
    s'.pageMappings = s.pageMappings ∧ PmmCall.Effect b s s' (.ppAllocIndex i) := by
  rcases ppAllocIndex_ok h with ⟨_, rfl, hno⟩ | ⟨hb, hi, hclear, c, rfl⟩
  · exact ⟨rfl, .stays (fun j hj => hno hj.2) ⟨rfl, rfl, rfl⟩⟩
  · exact ⟨rfl, .marks ⟨rfl, hb, hi, hclear⟩ ⟨hi, hclear, rfl, rfl, rfl⟩⟩

theorem ppFreeIndex_effect (h : ppFreeIndex s i = .ok s') :
    s'.pageMappings = s.pageMappings ∧ PmmCall.Effect b s s' (.ppFreeIndex i) := by
  rcases ppFreeIndex_ok h with ⟨rfl, hno⟩ | ⟨hi, hset, rfl⟩
  · exact ⟨rfl, .stays (fun j hj => hno hj.2) ⟨rfl, rfl, rfl⟩⟩
  · exact ⟨rfl, .clears ⟨rfl, hi, hset⟩ ⟨hi, hset, rfl, rfl, rfl⟩⟩

theorem PmmCall.run_effect {c : PmmCall} (h : c.run b s = .ok s') :
    s'.pageMappings = s.pageMappings ∧ c.Effect b s s' := by
  cases c with
  | ppAlloc =>
    obtain ⟨⟨p, _⟩, ha, rfl⟩ := map_ok h
    obtain ⟨i, hn⟩ := ppAlloc_next ha
    rw [hn.ppAlloc_eq] at ha
    rcases ppAllocIndex_ok ha with ⟨_, rfl, hno⟩ | ⟨hb, hi, hclear, c, rfl⟩
    · refine ⟨rfl, .stays ?_ ⟨rfl, rfl, rfl⟩⟩
      intro j hj
      rw [hj.1.unique hn] at hj
      exact hno ⟨hj.2, hn.2.1, hn.2.2.1⟩
    · exact ⟨rfl, .marks ⟨hn, hb⟩ ⟨hi, hclear, rfl, rfl, rfl⟩⟩
  | ppAllocIndex i =>
    obtain ⟨_, ha, rfl⟩ := map_ok h
    exact ppAllocIndex_effect ha
  | ppFree p =>
    obtain ⟨⟨i, s₁⟩, hp, hf⟩ := bind_ok h
    obtain ⟨c, rfl⟩ := ptrToPage_cursor hp
    rcases ppFreeIndex_ok hf with ⟨rfl, hno⟩ | ⟨hi, hset, rfl⟩
    · refine ⟨rfl, .stays ?_ ⟨rfl, rfl, rfl⟩⟩
      intro j hj
      obtain ⟨⟨s₂, hp'⟩, hj⟩ := hj
      rw [hp] at hp'
      cases hp'
      exact hno hj
    · exact ⟨rfl, .clears ⟨⟨_, hp⟩, hi, hset⟩ ⟨hi, hset, rfl, rfl, rfl⟩⟩
  | ppFreeIndex i => exact ppFreeIndex_effect h
  | pageToPtr i =>
    obtain ⟨⟨_, _⟩, ha, rfl⟩ := map_ok h
    obtain ⟨c, rfl⟩ := pageToPtr_cursor ha
    exact ⟨rfl, .stays (fun _ => id) ⟨rfl, rfl, rfl⟩⟩
  | ptrToPage p =>
    obtain ⟨⟨_, _⟩, ha, rfl⟩ := map_ok h
    obtain ⟨c, rfl⟩ := ptrToPage_cursor ha
    exact ⟨rfl, .stays (fun _ => id) ⟨rfl, rfl, rfl⟩⟩
  | getFreePage =>
    obtain ⟨⟨_, _⟩, ha, rfl⟩ := map_ok h
    obtain ⟨_, rfl⟩ := getFreePage_ok ha
    exact ⟨rfl, .stays (fun _ => id) ⟨rfl, rfl, rfl⟩⟩

theorem PmmCall.run_usedDrift {c : PmmCall} (h : c.run b s = .ok s') :
    s'.usedDrift = s.usedDrift := by
  obtain ⟨hm, he⟩ := run_effect h
  cases he with
  | stays _ he => exact (he.drift hm).1
  | marks _ he => exact (he.drift hm).1
  | clears _ he => exact he.usedDrift hm

/-- The free pages drift with exactly the calls that touch a page without a mapping. -/
theorem PmmCall.run_freeDrift {c : PmmCall} (h : c.run b s = .ok s') :
    s'.freeDrift = s.freeDrift ↔ c.Mapped b s := by
  obtain ⟨hm, he⟩ := run_effect h
  cases he with
  | stays hno he => exact iff_of_true (he.drift hm).2 fun i hi => (hno i hi).elim
  | marks hi he => exact (he.freeDrift_iff hm).trans hi.mapped_iff.symm
  | clears hi he => exact (he.freeDrift_iff hm).trans hi.mapped_iff.symm

theorem range_and_update {p : Nat → Bool} (h : j < i) (k : Nat) :
    (range i n k && Function.update p j true k) = (range i n k && p k) := by
  by_cases hk : k = j
  · rw [hk, range_below h, Bool.false_and, Bool.false_and]
  · rw [Function.update_of_ne hk]

/-- A reservation counts every page of its range as used and takes it off the free ones, once
more when it was marked before. -/
theorem reservePages_counts (h : reservePages s i n = .ok s') :
    s'.usedPages = s.usedPages + .ofNat 64 (bits (range i n) maxPages) ∧
      s'.freePages = s.freePages - .ofNat 64 (bits (range i n) maxPages) -
        .ofNat 64 (bits (fun k => range i n k && s.pageBitmap k) maxPages) := by
  have hone (u x : BitVec 64) : u + 1 + x = u + (x + 1) := by bv_omega
  have hshift (f x y : BitVec 64) : f - 1 - x - y = f - (x + 1) - y := by bv_omega
  have htwice (f x y : BitVec 64) : f - 1 - 1 - x - y = f - (x + 1) - (y + 1) := by
    simp only [BitVec.sub_eq_add_neg, BitVec.neg_add, BitVec.add_assoc]
    ac_rfl
  induction n generalizing s i with
  | zero =>
    have hnone : bits (fun k => range i 0 k && s.pageBitmap k) maxPages = 0 :=
      bits_eq_zero.2 fun k _ => by rw [range_zero, Bool.false_and]
    have hzero : bits (range i 0) maxPages = 0 := bits_eq_zero.2 fun k _ => by rw [range_zero]
    rw [hnone, hzero]
    cases h
    exact ⟨(BitVec.add_zero _).symm, by bv_omega⟩
  | succ n ih =>
    rw [reservePages] at h
    split at h
    · obtain ⟨free, hf, h⟩ := bind_ok h
      obtain ⟨hi, rfl⟩ := pageFree_ok hf
      obtain ⟨mid, hmid, h⟩ := bind_ok h
      rw [setUsed_eq hi] at hmid
      cases hmid
      obtain ⟨hused, hfree⟩ := ih h
      have hrange : bits (range i (n + 1)) maxPages = bits (range (i + 1) n) maxPages + 1 := by
        rw [range_succ]
        exact bits_set hi (range_below (Nat.lt_succ_self i))
      have hstep : bits (fun k => range (i + 1) n k && Function.update s.pageBitmap i true k)
          maxPages = bits (fun k => range (i + 1) n k && s.pageBitmap k) maxPages :=
        bits_congr fun k _ => range_and_update (Nat.lt_succ_self i) k
      have hboth := bits_range_succ s.pageBitmap hi n
      cases hset : s.pageBitmap i with
      | false =>
        rw [hset, Bool.toNat_false, Nat.add_zero (bits _ _)] at hboth
        simp only [hset, Bool.not_false, ↓reduceIte] at hused hfree
        rw [hused, hfree, hrange, hboth, hstep, BitVec.ofNat_add]
        exact ⟨hone _ _, hshift _ _ _⟩
      | true =>
        rw [hset, Bool.toNat_true] at hboth
        simp only [hset, Bool.not_true, Bool.false_eq_true, ↓reduceIte] at hused hfree
        rw [hused, hfree, hrange, hboth, hstep, BitVec.ofNat_add, BitVec.ofNat_add]
        exact ⟨hone _ _, htwice _ _ _⟩
    · next hbig =>
      obtain ⟨hused, hfree⟩ := ih h
      have hi : maxPages ≤ i := Nat.le_of_lt (Nat.lt_of_not_le hbig)
      have hall : ∀ j m, maxPages ≤ j → bits (range j m) maxPages = 0 := by
        intro j m hj
        apply bits_eq_zero.2
        intro k hk
        exact range_below (Nat.lt_of_lt_of_le hk hj)
      have hnext : maxPages ≤ i + 1 := Nat.le_trans hi (Nat.le_succ i)
      rw [hall (i + 1) n hnext] at hused hfree
      rw [bits_range_beyond s.pageBitmap hnext n] at hfree
      rw [hall i (n + 1) hi, bits_range_beyond s.pageBitmap hi (n + 1)]
      exact ⟨hused, hfree⟩

/-- The bits that `setup_pmm` reserves for the kernel and for the bitmap. -/
def kernelBit (b : BootInfo) : Nat → Bool :=
  range b.kernelFirstPage (b.kernelLastPage + 1 - b.kernelFirstPage)

def bitmapBit (b : BootInfo) : Nat → Bool :=
  range b.bitmapFirstPage (b.bitmapLastPage + 1 - b.bitmapFirstPage)

def reservedBit (b : BootInfo) (i : Nat) : Bool := kernelBit b i || bitmapBit b i

def mappedBit (b : BootInfo) (i : Nat) : Bool := b.mappings.any (·.holdsIndex i)

def ReservedOnce (b : BootInfo) : Prop :=
  ∀ i < maxPages, (kernelBit b i && bitmapBit b i) = false

/-- The pages of the chunks, with one more for each chunk, are as many as the reserved indices
and the other mapped ones together. -/
structure ReservedExactly (b : BootInfo) : Prop where
  once : ReservedOnce b
  balanced : b.chunks.foldl pagesAfter 0 =
    bits (reservedBit b) maxPages + bits (fun i => !reservedBit b i && mappedBit b i) maxPages

/-- What the reservations leave behind. -/
structure ReservedState (b : BootInfo) (s : Pmm) : Prop where
  few : b.chunks.length ≤ maxSegments
  table : s.pageMappings = b.mappings
  bitmap : ∀ i < maxPages, s.pageBitmap i = reservedBit b i
  used : s.usedPages = .ofNat 64 (bits (kernelBit b) maxPages + bits (bitmapBit b) maxPages)
  free : s.freePages = .ofNat 64 (b.chunks.foldl pagesAfter 0) -
    .ofNat 64 (bits (kernelBit b) maxPages + bits (bitmapBit b) maxPages +
      bits (fun i => kernelBit b i && bitmapBit b i) maxPages)

theorem reservePmm_state (h : reservePmm b ram = .ok s) : ReservedState b s := by
  obtain ⟨d, hd, h⟩ := bind_ok h
  obtain ⟨s₂, hg, h⟩ := bind_ok h
  obtain ⟨s₃, hk, hm⟩ := bind_ok h
  obtain ⟨hcount, hlen⟩ := getMemoryDescriptor_counts hd
  have htake : d.chunkPtr.take d.chunkCount = d.chunkPtr := by rw [hcount, ← hlen, List.take_length]
  have hchunks : b.chunks = d.chunkPtr := by rw [BootInfo.chunks, hd]
  rw [generatePageMapping] at hg
  simp only [htake] at hg
  split at hg
  · next hfew =>
    cases hg
    obtain ⟨hkm, _, _, hkb⟩ := reservePages_ok hk
    obtain ⟨hmm, _, _, hmb⟩ := reservePages_ok hm
    obtain ⟨hku, hkf⟩ := reservePages_counts hk
    obtain ⟨hmu, hmf⟩ := reservePages_counts hm
    rw [← kernelBit] at hku hkf
    rw [← bitmapBit] at hmu hmf
    have hkernel : ∀ i < maxPages, s₃.pageBitmap i = kernelBit b i := by
      intro i hi
      rw [hkb i hi, kernelBit, range]
      exact Bool.false_or _
    have hfirst : bits (fun i => kernelBit b i && false) maxPages = 0 :=
      bits_eq_zero.2 fun i _ => Bool.and_false _
    have hagain : bits (fun i => bitmapBit b i && s₃.pageBitmap i) maxPages =
        bits (fun i => kernelBit b i && bitmapBit b i) maxPages :=
      bits_congr fun i hi => by rw [hkernel i hi, Bool.and_comm]
    have hzero (x y : BitVec 64) : 0 + x + y = x + y := congrArg (· + y) (BitVec.zero_add x)
    simp only [Pmm.initial, hfirst] at hku hkf
    rw [hagain, hkf] at hmf
    rw [hku] at hmu
    refine ⟨hchunks ▸ hfew, ?_, ?_, ?_, ?_⟩
    · rw [hmm, hkm, BootInfo.mappings, hchunks]
    · intro i hi
      rw [hmb i hi, hkernel i hi, reservedBit, bitmapBit, range]
    · rw [hmu, BitVec.ofNat_add]
      exact hzero _ _
    · rw [hmf, hchunks, BitVec.ofNat_add, BitVec.ofNat_add]
      simp only [BitVec.sub_eq_add_neg, BitVec.neg_add, BitVec.add_assoc, BitVec.neg_zero,
        BitVec.zero_add]
  · cases hg

theorem foldl_pagesAfter_le (chunks : List Chunk) (used : Nat) :
    chunks.foldl pagesAfter used ≤ used + chunks.length * 2 ^ 53 := by
  induction chunks generalizing used with
  | nil => exact Nat.le_add_right _ _
  | cons c chunks ih =>
    have hc : sub64 c.bounds c.base < 2 ^ 64 := Nat.mod_lt _ (by decide)
    have hpage : pagesAfter used c ≤ used + 2 ^ 53 := by
      rw [pagesAfter, pageSize]
      omega
    have ih := ih (pagesAfter used c)
    rw [List.foldl_cons, List.length_cons, Nat.succ_mul]
    omega

theorem ofNat_eq_iff (hm : m < 2 ^ 64) (hn : n < 2 ^ 64) :
    BitVec.ofNat 64 m = .ofNat 64 n ↔ m = n := by
  rw [← BitVec.toNat_inj, BitVec.toNat_ofNat, BitVec.toNat_ofNat, Nat.mod_eq_of_lt hm,
    Nat.mod_eq_of_lt hn]

theorem bits_lt (p : Nat → Bool) : bits p maxPages < 2 ^ 21 :=
  Nat.lt_of_le_of_lt (bits_le p maxPages) (by decide)

theorem reservedBit_count (b : BootInfo) : bits (reservedBit b) maxPages +
    bits (fun i => kernelBit b i && bitmapBit b i) maxPages =
      bits (kernelBit b) maxPages + bits (bitmapBit b) maxPages :=
  bits_or_add_and _ _ _

theorem ReservedState.usedDrift_iff (h : ReservedState b s) :
    s.usedDrift = 0 ↔ ReservedOnce b := by
  have hsub (m n : BitVec 64) : m - n = 0 ↔ m = n := by bv_omega
  have hbits : s.usedBits = bits (reservedBit b) maxPages := bits_congr h.bitmap
  have hcount := reservedBit_count b
  have hk := bits_lt (kernelBit b)
  have hm := bits_lt (bitmapBit b)
  have hr := bits_lt (reservedBit b)
  rw [Pmm.usedDrift, hsub, h.used, hbits, ofNat_eq_iff (by omega) (by omega), ReservedOnce,
    ← bits_eq_zero]
  omega

theorem ReservedState.freeDrift_iff (h : ReservedState b s) (hone : ReservedOnce b) :
    s.freeDrift = 0 ↔ ReservedExactly b := by
  have hmove (m n k : BitVec 64) : m - n - k = 0 ↔ m = n + k := by bv_omega
  have hheld : s.held = mappedBit b := by
    funext i
    rw [Pmm.held, mappedBit, h.table]
  have hfree : s.freeBits = bits (fun i => !reservedBit b i && mappedBit b i) maxPages :=
    bits_congr fun i hi => by rw [Pmm.freeBit, hheld, h.bitmap i hi]
  have hcount := reservedBit_count b
  have hboth : bits (fun i => kernelBit b i && bitmapBit b i) maxPages = 0 := bits_eq_zero.2 hone
  have hr := bits_lt (reservedBit b)
  have hf := bits_lt fun i => !reservedBit b i && mappedBit b i
  have hp := foldl_pagesAfter_le b.chunks 0
  have hfew := h.few
  rw [maxSegments] at hfew
  rw [hboth, Nat.add_zero] at hcount
  rw [Pmm.freeDrift, h.free, hfree, hboth, Nat.add_zero, ← hcount, hmove, ← BitVec.ofNat_add,
    ofNat_eq_iff (by omega) (by omega)]
  exact ⟨fun he => ⟨hone, he⟩, fun he => he.balanced⟩

theorem PmmCalls.usedDrift (hr : PmmCalls b s₀ s) : s.usedDrift = s₀.usedDrift := by
  induction hr with
  | start => rfl
  | call _ hc ih => exact (PmmCall.run_usedDrift hc).trans ih

theorem MappedRun.calls (hr : MappedRun b s₀ s) : PmmCalls b s₀ s := by
  induction hr with
  | start => exact .start
  | call _ _ hc ih => exact ih.call hc

theorem MappedRun.freeDrift (hr : MappedRun b s₀ s) : s.freeDrift = s₀.freeDrift := by
  induction hr with
  | start => rfl
  | call _ hm hc ih => exact ((PmmCall.run_freeDrift hc).2 hm).trans ih

theorem MappedRun.trans (hr : MappedRun b s₀ s₁) (hr' : MappedRun b s₁ s) : MappedRun b s₀ s := by
  induction hr' with
  | start => exact hr
  | call _ hm hc ih => exact ih.call hm hc

/-- The counter of used pages is right in every state of every run, or in none. -/
theorem usedPages_exact_iff (hs : reservePmm b ram = .ok s₁) (hr : PmmCalls b s₁ s) :
    s.usedPages = .ofNat 64 s.usedBits ↔ ReservedOnce b := by
  have hsub (m n : BitVec 64) : m - n = 0 ↔ m = n := by bv_omega
  rw [← (reservePmm_state hs).usedDrift_iff, ← hr.usedDrift, Pmm.usedDrift, hsub]

theorem MappedRun.accounted_iff (hs : reservePmm b ram = .ok s₁) (hr : MappedRun b s₁ s) :
    Accounted s ↔ ReservedExactly b := by
  have hstate := reservePmm_state hs
  rw [AdaOS.accounted_iff, hr.calls.usedDrift, hr.freeDrift, hstate.usedDrift_iff]
  constructor
  · rintro ⟨hone, hfree⟩
    exact (hstate.freeDrift_iff hone).1 hfree
  · intro h
    exact ⟨h.once, (hstate.freeDrift_iff h.once).2 h⟩

theorem PmmCall.accounted_iff {c : PmmCall} (h : Accounted s) (hc : c.run b s = .ok s') :
    Accounted s' ↔ c.Mapped b s := by
  obtain ⟨hused, hfree⟩ := AdaOS.accounted_iff.1 h
  rw [AdaOS.accounted_iff, run_usedDrift hc, hused, ← run_freeDrift hc, hfree]
  exact and_iff_right rfl

/-- The counters are right after `setup_pmm`, and stay right, exactly when no page is reserved
twice, the chunks have as many pages as indices are reserved or mapped, and every page that is
marked or cleared has a mapping. -/
theorem accounts_exact_iff (hs : setupPmm b ram = .ok (p₀, s₀)) :
    ∃ s₁, reservePmm b ram = .ok s₁ ∧
      (PmmCall.ppAlloc.Mapped b s₁ →
        ∀ s, MappedRun b s₀ s → (Accounted s ↔ ReservedExactly b)) ∧
      (∀ s, PmmCalls b s₀ s → (s.usedPages = .ofNat 64 s.usedBits ↔ ReservedOnce b)) ∧
      ∀ s, PmmCalls b s₀ s → Accounted s → ∀ c s', PmmCall.run b s c = .ok s' →
        (Accounted s' ↔ c.Mapped b s) := by
  rw [setupPmm_eq] at hs
  obtain ⟨s₁, hr, ha⟩ := bind_ok hs
  have hself : PmmCall.run b s₁ .ppAlloc = .ok s₀ := by rw [PmmCall.run, ha]; rfl
  refine ⟨s₁, hr, ?_, ?_, ?_⟩
  · intro hm s hrun
    exact MappedRun.accounted_iff hr (.trans (.call .start hm hself) hrun)
  · intro s hrun
    exact usedPages_exact_iff hr (.trans (.call .start hself) hrun)
  · intro s _ h c s' hc
    exact PmmCall.accounted_iff h hc

theorem ppAlloc_mapped (hb : Manageable b) (h : s.Tabled b) (ha : ppAlloc b s = .ok (p, s'))
    (hp : p ≠ 0) : PmmCall.ppAlloc.Mapped b s := by
  obtain ⟨i, hn, _, m, hm, hh⟩ := (ppAlloc_nonnull_iff hb h).1 ⟨p, s', ha, hp⟩
  intro j hj
  rw [hj.1.unique hn]
  exact List.any_eq_true.2 ⟨m, hm, hh⟩

/-- The kernel at 2 MiB, its bitmap above it, and one chunk of 65534 pages: the table maps the
indices from 1 to 65535, and both reserved ranges lie among them. -/
def exactChunk : BootInfo where
  memmap := [⟨0x200000, 0x300000, .executableAndModules⟩, ⟨0x1000000, 0xfffe000, .usable⟩]
  physicalBase := 0x200000
  virtualBase := 0xffffffff80000000
  executableFileSize := 0x100000
  pageBitmap := 0xffffffff80110000

theorem exactChunk_descriptor : getMemoryDescriptor exactChunk.memmap =
    .ok ⟨0xfffe000, 1, [⟨0x1000000, 0x10ffe000⟩]⟩ := rfl

theorem exactChunk_mappings : exactChunk.mappings = [⟨0x1000000, 0, 65536⟩] := rfl

theorem exactChunk_admissible : Admissible exactChunk where
  sorted := by decide
  physical := by decide
  aligned := by decide
  disjoint := by decide
  chunks := fun d hd => by
    rw [exactChunk_descriptor] at hd
    cases hd
    decide

theorem exactChunk_setup (ram : Nat → BitVec 8) :
    ∃ s, setupPmm exactChunk ram = .ok (0x1002000, s) ∧ Climb exactChunk s 2 511 :=
  setupPmm_climb exactChunk_descriptor rfl (by decide) (by decide) (by decide) (by decide)
    (by decide) (by decide) exactChunk_mappings rfl (by decide) (by decide) (by decide)

theorem exactChunk_ranges : kernelBit exactChunk = range 512 257 ∧
    bitmapBit exactChunk = range 784 257 := ⟨rfl, rfl⟩

theorem exactChunk_exactly : ReservedExactly exactChunk := by
  obtain ⟨hk, hb⟩ := exactChunk_ranges
  constructor
  · intro i _
    rw [hk, hb, range, range, ← Bool.decide_and]
    exact decide_eq_false (by omega)
  · have hmapped : mappedBit exactChunk = range 1 65535 := by
      funext i
      rw [mappedBit, exactChunk_mappings, range]
      simp only [List.any_cons, List.any_nil, Bool.or_false, PageMapping.holdsIndex,
        ← Bool.decide_and]
      exact decide_eq_decide.2 (by omega)
    have hall : bits (range 1 65535) maxPages = 65535 := bits_range (by decide)
    rw [bits_add_rest, hmapped, hall]
    · rfl
    · intro i _ hi
      rw [reservedBit, hk, hb, range, range, ← Bool.decide_or, decide_eq_true_iff] at hi
      rw [hmapped]
      exact decide_eq_true (by omega)

theorem accounts_exact_exactChunk : ∃ p₀ s₀, setupPmm exactChunk (fun _ => 0) = .ok (p₀, s₀) ∧
    Accounted s₀ := by
  obtain ⟨s₀, hs, _⟩ := exactChunk_setup fun _ => 0
  obtain ⟨s₁, hr, hself, _⟩ := accounts_exact_iff hs
  have hb := exactChunk_admissible.manageable
  have hinv := reservePmm_inv hb.few hr
  have ha : ppAlloc exactChunk s₁ = .ok (0x1002000, s₀) := by
    rw [setupPmm_eq] at hs
    exact (bind_of_ok hr _).symm.trans hs
  have hmapped := ppAlloc_mapped hb ⟨hinv.ready, hinv.table⟩ ha (by decide)
  exact ⟨_, s₀, hs, (hself hmapped s₀ .start).2 exactChunk_exactly⟩

/-- With the map of `oneChunk` the bitmap lies in the kernel's image, and its pages count twice. -/
theorem oneChunk_unaccounted : ∃ p₀ s₀, setupPmm oneChunk (fun _ => 0) = .ok (p₀, s₀) ∧
    ¬Accounted s₀ := by
  obtain ⟨s₀, hs, _⟩ := oneChunk_setup fun _ => 0
  refine ⟨_, s₀, hs, fun h => ?_⟩
  rw [setupPmm_eq] at hs
  obtain ⟨s₁, hr, ha⟩ := bind_ok hs
  have hself : PmmCall.run oneChunk s₁ .ppAlloc = .ok s₀ := by rw [PmmCall.run, ha]; rfl
  have honce := (usedPages_exact_iff hr (.call .start hself)).1 h.used
  have htwice : (kernelBit oneChunk 0x7fe20 && bitmapBit oneChunk 0x7fe20) = true := by decide
  rw [honce 0x7fe20 (by decide)] at htwice
  cases htwice

end AdaOS
