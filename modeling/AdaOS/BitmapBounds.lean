import AdaOS.PmmRefusals
import AdaOS.TableBounds

namespace AdaOS
set_option autoImplicit true

/-- The pages whose bits the linear search of `get_free_page` looks at. -/
def scanned (s : Pmm) : Nat → Nat → List Nat
  | _, 0 => []
  | i, n + 1 => i :: if s.pageBitmap i then scanned s (i + 1) n else []

def getFreePageBits (b : BootInfo) (s : Pmm) : List Nat :=
  (startPage b s + 1) ::
    if s.pageBitmap (startPage b s + 1) then scanned s 1 maxPages else []

def ppAllocIndexBits (b : BootInfo) (pageIndex : Nat) : List Nat :=
  if pageIndex ≥ b.physicalBase then [] else if pageIndex > maxPages then [] else [pageIndex]

def ppFreeIndexBits (pageIndex : Nat) : List Nat :=
  if pageIndex > maxPages then [] else [pageIndex]

/-- The pages whose bits a call reads or writes. -/
def PmmCall.bits (b : BootInfo) (s : Pmm) : PmmCall → List Nat
  | .ppAlloc =>
    getFreePageBits b s ++
      match AdaOS.getFreePage b s with
      | .ok (i, _) => ppAllocIndexBits b i
      | .error _ => []
  | .ppAllocIndex i => ppAllocIndexBits b i
  | .ppFree p =>
    match AdaOS.ptrToPage s p with
    | .ok (i, _) => ppFreeIndexBits i
    | .error _ => []
  | .ppFreeIndex i => ppFreeIndexBits i
  | .pageToPtr _ => []
  | .ptrToPage _ => []
  | .getFreePage => getFreePageBits b s

/-- The byte that holds the bit of a page is in `page_bitmap`. -/
def InBitmap (pageIndex : Nat) : Prop := pageIndex / 8 < maxPages / 8

/-- The pages whose bits a reservation loop of `setup_pmm` reads and writes. -/
def reserveBits (i n : Nat) : List Nat := (List.range' i n).filter (· ≤ maxPages)

/-- `setup_pmm` up to its reservation loops. -/
def mappedPmm (b : BootInfo) (ram : Nat → BitVec 8) : Except Fault Pmm := do
  let desc ← getMemoryDescriptor b.memmap
  generatePageMapping { Pmm.initial ram with desc := desc }

/-- The pages whose bits `setup_pmm` reads and writes. -/
def setupBits (b : BootInfo) (ram : Nat → BitVec 8) : List Nat :=
  match mappedPmm b ram with
  | .error _ => []
  | .ok _ =>
    reserveBits b.kernelFirstPage (b.kernelLastPage + 1 - b.kernelFirstPage) ++
      reserveBits b.bitmapFirstPage (b.bitmapLastPage + 1 - b.bitmapFirstPage) ++
      match reservePmm b ram with
      | .ok s => PmmCall.ppAlloc.bits b s
      | .error _ => []

/-- The pages whose bits a sequence of calls reads or writes. -/
def callsBits (b : BootInfo) (s : Pmm) : List PmmCall → List Nat
  | [] => []
  | c :: cs => c.bits b s ++ match c.run b s with
    | .ok s' => callsBits b s' cs
    | .error _ => []

/-- The pages whose bits `setup_pmm` and a sequence of calls after it read or write. -/
def systemBits (b : BootInfo) (ram : Nat → BitVec 8) (cs : List PmmCall) : List Nat :=
  setupBits b ram ++ match setupPmm b ram with
    | .ok (_, s) => callsBits b s cs
    | .error _ => []

/-- The search does not begin past the last page, and there is a page for it to end at. -/
structure SearchGuarded (b : BootInfo) (s : Pmm) : Prop where
  hint : ¬(s.lastPageUsed + 1 = maxPages ∧ maxPages ≤ b.physicalBase / pageSize)
  room : ∃ i, 1 ≤ i ∧ i < maxPages ∧ s.pageBitmap i = false

/-- The page index that every guard lets through does not come up. -/
def PmmCall.Guarded (b : BootInfo) (s : Pmm) : PmmCall → Prop
  | .ppAlloc => SearchGuarded b s
  | .ppAllocIndex i => i = maxPages → b.physicalBase ≤ maxPages
  | .ppFree p => ∀ s', AdaOS.ptrToPage s p ≠ .ok (maxPages, s')
  | .ppFreeIndex i => i ≠ maxPages
  | .pageToPtr _ => True
  | .ptrToPage _ => True
  | .getFreePage => SearchGuarded b s

/-- Neither reserved range holds the page index that the guard of the loops lets through, and
they leave a page for the self-test, whose search does not begin past the last page. -/
structure SetupGuarded (b : BootInfo) : Prop where
  kernel : ¬(b.kernelFirstPage ≤ maxPages ∧ maxPages ≤ b.kernelLastPage)
  bitmap : ¬(b.bitmapFirstPage ≤ maxPages ∧ maxPages ≤ b.bitmapLastPage)
  hint : ¬(b.bitmapFirstPage ≤ b.bitmapLastPage ∧ b.bitmapLastPage + 1 = maxPages ∧
    maxPages ≤ b.kernelFirstPage)
  room : ∃ i, 1 ≤ i ∧ i < maxPages ∧ ¬Reserved b i

/-- Every call of a sequence is guarded in the state it comes in. -/
def CallsGuarded (b : BootInfo) (s : Pmm) : List PmmCall → Prop
  | [] => True
  | c :: cs => c.Guarded b s ∧ ∀ s', c.run b s = .ok s' → CallsGuarded b s' cs

variable {b : BootInfo} {s s' s₁ s₂ : Pmm} {c : PmmCall}

theorem inBitmap_iff : InBitmap i ↔ i < maxPages := byte_lt_iff

theorem mem_scanned : k ∈ scanned s i n ↔
    i ≤ k ∧ k < i + n ∧ ∀ j, i ≤ j → j < k → s.pageBitmap j = true := by
  induction n generalizing i with
  | zero =>
    refine iff_of_false List.not_mem_nil ?_
    omega
  | succ n ih =>
    rw [scanned, List.mem_cons]
    cases hb : s.pageBitmap i with
    | false =>
      simp only [Bool.false_eq_true, ↓reduceIte, List.not_mem_nil, or_false]
      constructor
      · rintro rfl
        exact ⟨Nat.le_refl _, by omega, fun j hj hlt => absurd hlt (Nat.not_lt_of_le hj)⟩
      · rintro ⟨hle, _, hset⟩
        by_contra hne
        have hi := hset i (Nat.le_refl _) (by omega)
        rw [hb] at hi
        cases hi
    | true =>
      simp only [↓reduceIte]
      rw [ih]
      constructor
      · rintro (rfl | ⟨hle, hlt, hset⟩)
        · exact ⟨Nat.le_refl _, by omega, fun j hj hlt => absurd hlt (Nat.not_lt_of_le hj)⟩
        · refine ⟨by omega, by omega, fun j hj hjk => ?_⟩
          rcases Nat.eq_or_lt_of_le hj with rfl | hj
          · exact hb
          · exact hset j hj hjk
      · rintro ⟨hle, hlt, hset⟩
        rcases Nat.eq_or_lt_of_le hle with rfl | hle
        · exact .inl rfl
        · exact .inr ⟨hle, by omega, fun j hj hjk => hset j (Nat.le_of_succ_le hj) hjk⟩

theorem scanned_inBitmap_iff : (∀ k ∈ scanned s 1 maxPages, InBitmap k) ↔
    ∃ i, 1 ≤ i ∧ i < maxPages ∧ s.pageBitmap i = false := by
  constructor
  · intro h
    by_contra hfull
    have hmem : maxPages ∈ scanned s 1 maxPages := by
      rw [mem_scanned]
      refine ⟨by decide, by omega, fun j hj hlt => ?_⟩
      by_contra hclear
      exact hfull ⟨j, hj, hlt, Bool.eq_false_iff.2 hclear⟩
    exact Nat.lt_irrefl _ (inBitmap_iff.1 (h _ hmem))
  · rintro ⟨i, hi, hlt, hclear⟩ k hk
    obtain ⟨_, hend, hset⟩ := mem_scanned.1 hk
    rw [inBitmap_iff]
    by_contra hbig
    have hset := hset i hi (by omega)
    rw [hclear] at hset
    cases hset

theorem startPage_lt (b : BootInfo) (s : Pmm) : startPage b s < maxPages := by
  have hreset (last : Nat) : (if last ≥ maxPages then 1 else last) < maxPages := by
    split
    · decide
    · next h => exact Nat.lt_of_not_le h
  exact hreset _

theorem startPage_succ_iff : startPage b s + 1 = maxPages ↔
    s.lastPageUsed + 1 = maxPages ∧ maxPages ≤ b.physicalBase / pageSize := by
  have hone : 1 + 1 ≠ maxPages := by decide
  rw [startPage]
  split_ifs with hkernel hbig hbig
  · exact absurd hbig (by decide)
  · exact iff_of_false hone (by omega)
  · exact iff_of_false hone (by omega)
  · omega

theorem getFreePageBits_iff :
    (∀ i ∈ getFreePageBits b s, InBitmap i) ↔ SearchGuarded b s := by
  have hlt := startPage_lt b s
  rw [getFreePageBits, List.forall_mem_cons, inBitmap_iff]
  constructor
  · rintro ⟨hstart, hscan⟩
    refine ⟨fun h => ?_, ?_⟩
    · exact Nat.ne_of_lt hstart (startPage_succ_iff.2 h)
    · cases hb : s.pageBitmap (startPage b s + 1) with
      | false => exact ⟨_, Nat.le_add_left 1 _, hstart, hb⟩
      | true =>
        rw [if_pos hb] at hscan
        exact scanned_inBitmap_iff.1 hscan
  · rintro ⟨hhint, hroom⟩
    refine ⟨?_, ?_⟩
    · exact Nat.lt_of_le_of_ne hlt fun h => hhint (startPage_succ_iff.1 h)
    · split
      · exact scanned_inBitmap_iff.2 hroom
      · exact fun _ h => nomatch h

theorem ppAllocIndexBits_iff : (∀ j ∈ ppAllocIndexBits b i, InBitmap j) ↔
    (i = maxPages → b.physicalBase ≤ maxPages) := by
  rw [ppAllocIndexBits]
  split_ifs with hb hi
  · refine iff_of_true (fun _ h => nomatch h) ?_
    rintro rfl
    exact hb
  · refine iff_of_true (fun _ h => nomatch h) ?_
    rintro rfl
    exact absurd hi (Nat.lt_irrefl _)
  · rw [List.forall_mem_singleton, inBitmap_iff]
    constructor
    · rintro hlt rfl
      exact absurd hlt (Nat.lt_irrefl _)
    · intro h
      by_contra hge
      have he : i = maxPages := Nat.le_antisymm (Nat.le_of_not_lt hi) (Nat.le_of_not_lt hge)
      exact hb (he ▸ h he)

theorem ppFreeIndexBits_iff : (∀ j ∈ ppFreeIndexBits i, InBitmap j) ↔ i ≠ maxPages := by
  rw [ppFreeIndexBits]
  split_ifs with hi
  · exact iff_of_true (fun _ h => nomatch h) (Nat.ne_of_gt hi)
  · rw [List.forall_mem_singleton, inBitmap_iff]
    exact ⟨Nat.ne_of_lt, fun h => Nat.lt_of_le_of_ne (Nat.le_of_not_lt hi) h⟩

theorem PmmCall.bits_iff : (∀ i ∈ c.bits b s, InBitmap i) ↔ c.Guarded b s := by
  cases c with
  | ppAlloc =>
    rw [bits, List.forall_mem_append, getFreePageBits_iff, Guarded, and_iff_left_iff_imp]
    intro _
    split
    · next i s' hg =>
      obtain ⟨hi, _⟩ := getFreePage_ok hg
      rw [ppAllocIndexBits_iff]
      rintro rfl
      exact absurd hi.2.1 (Nat.lt_irrefl _)
    · exact fun _ h => nomatch h
  | ppAllocIndex i => exact ppAllocIndexBits_iff
  | ppFree p =>
    rw [bits, Guarded]
    cases hp : AdaOS.ptrToPage s p with
    | error e => exact iff_of_true (fun _ h => nomatch h) (fun _ h => nomatch h)
    | ok r =>
      obtain ⟨i, s'⟩ := r
      rw [ppFreeIndexBits_iff]
      constructor
      · rintro hne s'' he
        cases he
        exact hne rfl
      · rintro h rfl
        exact h s' rfl
  | ppFreeIndex i => exact ppFreeIndexBits_iff
  | pageToPtr i => exact iff_of_true (fun _ h => nomatch h) trivial
  | ptrToPage p => exact iff_of_true (fun _ h => nomatch h) trivial
  | getFreePage => exact getFreePageBits_iff

theorem reserveBits_iff : (∀ k ∈ reserveBits i n, InBitmap k) ↔
    ¬(i ≤ maxPages ∧ maxPages < i + n) := by
  simp only [reserveBits, List.mem_filter, List.mem_range'_1, decide_eq_true_eq, inBitmap_iff]
  constructor
  · intro h hin
    exact Nat.lt_irrefl _ (h maxPages ⟨hin, Nat.le_refl _⟩)
  · rintro h k ⟨hk, hle⟩
    refine Nat.lt_of_le_of_ne hle ?_
    rintro rfl
    exact h hk

theorem reservePages_inBounds (h : ∀ k ∈ reserveBits i n, InBitmap k) :
    ∃ s', reservePages s i n = .ok s' := by
  rw [reserveBits_iff] at h
  induction n generalizing s i with
  | zero => exact ⟨s, rfl⟩
  | succ n ih =>
    rw [reservePages]
    split
    · next hle =>
      have hi : i < maxPages := by omega
      simp only [bind_of_ok (pageFree_eq hi), bind_of_ok (setUsed_eq hi)]
      apply ih
      omega
    · apply ih
      omega

theorem reservePages_last (h : reservePages s i n = .ok s') :
    s'.lastPageUsed = if 0 < n ∧ i ≤ maxPages then i + n - 1 else s.lastPageUsed := by
  induction n generalizing s i with
  | zero =>
    cases h
    exact (if_neg fun hn => Nat.lt_irrefl 0 hn.1).symm
  | succ n ih =>
    rw [reservePages] at h
    split at h
    · next hle =>
      obtain ⟨free, hf, h⟩ := bind_ok h
      obtain ⟨hi, rfl⟩ := pageFree_ok hf
      obtain ⟨mid, hmid, h⟩ := bind_ok h
      rw [setUsed_eq hi] at hmid
      cases hmid
      rw [ih h]
      simp only [Nat.succ_pos, hle, and_self, ↓reduceIte]
      split_ifs <;> omega
    · next hbig =>
      rw [ih h, if_neg (by omega), if_neg (by omega)]

theorem mappedPmm_ok (ram : Nat → BitVec 8) (h : (foundChunks b.memmap).length ≤ maxSegments) :
    ∃ s, mappedPmm b ram = .ok s ∧ s.pageBitmap = (fun _ => false) ∧ s.lastPageUsed = 1 := by
  have hfit : (foundChunks b.memmap).length ≤ maxChunks := Nat.le_trans h (by decide)
  rw [mappedPmm, bind_of_ok (getMemoryDescriptor_eq hfit), generatePageMapping]
  refine ⟨_, if_pos ?_, rfl, rfl⟩
  refine Nat.le_trans (List.length_take_le _ _) ?_
  exact h

theorem mappedPmm_full (h : maxSegments < (foundChunks b.memmap).length) :
    mappedPmm b ram = .error .outOfBounds := by
  rw [mappedPmm]
  rcases Nat.lt_or_ge maxChunks (foundChunks b.memmap).length with hfull | hfit
  · rw [getMemoryDescriptor_full hfull]
    rfl
  · rw [bind_of_ok (getMemoryDescriptor_eq hfit), generatePageMapping]
    refine if_neg ?_
    simp only [List.length_take, List.length_reverse, Nat.min_self]
    exact Nat.not_le_of_lt h

theorem reservePmm_eq (b : BootInfo) (ram : Nat → BitVec 8) :
    reservePmm b ram = mappedPmm b ram >>= fun s =>
      reservePages s b.kernelFirstPage (b.kernelLastPage + 1 - b.kernelFirstPage) >>= fun s =>
        reservePages s b.bitmapFirstPage (b.bitmapLastPage + 1 - b.bitmapFirstPage) := by
  rw [reservePmm, mappedPmm]
  simp only [bind_assoc]

/-- What the two reservations leave the search of the self-test. -/
theorem reserved_guarded (hb : s.pageBitmap = fun _ => false) (hl : s.lastPageUsed = 1)
    (hk : reservePages s b.kernelFirstPage (b.kernelLastPage + 1 - b.kernelFirstPage) = .ok s₁)
    (hm : reservePages s₁ b.bitmapFirstPage (b.bitmapLastPage + 1 - b.bitmapFirstPage) = .ok s₂) :
    SearchGuarded b s₂ ↔
      ¬(b.bitmapFirstPage ≤ b.bitmapLastPage ∧ b.bitmapLastPage + 1 = maxPages ∧
        maxPages ≤ b.kernelFirstPage) ∧
      ∃ i, 1 ≤ i ∧ i < maxPages ∧ ¬Reserved b i := by
  obtain ⟨_, _, _, hkb⟩ := reservePages_ok hk
  obtain ⟨_, _, _, hmb⟩ := reservePages_ok hm
  have hclear : ∀ i < maxPages, (s₂.pageBitmap i = false ↔ ¬Reserved b i) := by
    intro i hi
    rw [hmb i hi, hkb i hi, hb, Bool.false_or, ← Bool.decide_or, decide_eq_false_iff_not, Reserved]
    omega
  have hlast : (s₂.lastPageUsed + 1 = maxPages ∧ maxPages ≤ b.physicalBase / pageSize) ↔
      b.bitmapFirstPage ≤ b.bitmapLastPage ∧ b.bitmapLastPage + 1 = maxPages ∧
        maxPages ≤ b.kernelFirstPage := by
    have hone : 1 + 1 ≠ maxPages := by decide
    rw [reservePages_last hm, reservePages_last hk, hl, ← BootInfo.kernelFirstPage]
    split_ifs <;> omega
  constructor
  · rintro ⟨hhint, i, hi, hlt, hfree⟩
    exact ⟨fun h => hhint (hlast.2 h), i, hi, hlt, (hclear i hlt).1 hfree⟩
  · rintro ⟨hhint, i, hi, hlt, hfree⟩
    exact ⟨fun h => hhint (hlast.1 h), i, hi, hlt, (hclear i hlt).2 hfree⟩

theorem setupBits_iff : (∀ i ∈ setupBits b ram, InBitmap i) ↔
    ((foundChunks b.memmap).length ≤ maxSegments → SetupGuarded b) := by
  rw [setupBits]
  rcases Nat.lt_or_ge maxSegments (foundChunks b.memmap).length with hfull | hfit
  · rw [mappedPmm_full hfull]
    exact iff_of_true (fun _ h => nomatch h) fun h => absurd h (Nat.not_le_of_lt hfull)
  · obtain ⟨s, hs, hb, hl⟩ := mappedPmm_ok ram hfit
    rw [hs, forall_prop_of_true hfit]
    simp only
    rw [List.forall_mem_append, List.forall_mem_append]
    constructor
    · rintro ⟨⟨hk, hm⟩, hfirst⟩
      obtain ⟨s₁, hs₁⟩ := reservePages_inBounds (s := s) hk
      obtain ⟨s₂, hs₂⟩ := reservePages_inBounds (s := s₁) hm
      have hr : reservePmm b ram = .ok s₂ := by
        rw [reservePmm_eq, bind_of_ok hs, bind_of_ok hs₁, hs₂]
      rw [hr] at hfirst
      rw [reserveBits_iff] at hk hm
      have hkernel : ¬(b.kernelFirstPage ≤ maxPages ∧ maxPages ≤ b.kernelLastPage) := by omega
      have hbitmap : ¬(b.bitmapFirstPage ≤ maxPages ∧ maxPages ≤ b.bitmapLastPage) := by omega
      obtain ⟨hhint, hroom⟩ := (reserved_guarded hb hl hs₁ hs₂).1
        (PmmCall.bits_iff.1 hfirst)
      exact ⟨hkernel, hbitmap, hhint, hroom⟩
    · rintro ⟨hkernel, hbitmap, hhint, hroom⟩
      refine ⟨⟨reserveBits_iff.2 (by omega), reserveBits_iff.2 (by omega)⟩, ?_⟩
      split
      · next s₂ hr =>
        rw [reservePmm_eq, bind_of_ok hs] at hr
        obtain ⟨s₁, hs₁, hs₂⟩ := bind_ok hr
        exact PmmCall.bits_iff.2
          ((reserved_guarded hb hl hs₁ hs₂).2 ⟨hhint, hroom⟩)
      · exact fun _ h => nomatch h

theorem callsBits_iff (cs : List PmmCall) :
    (∀ i ∈ callsBits b s cs, InBitmap i) ↔ CallsGuarded b s cs := by
  induction cs generalizing s with
  | nil => exact iff_of_true (fun _ h => nomatch h) trivial
  | cons c cs ih =>
    rw [callsBits, CallsGuarded, List.forall_mem_append, PmmCall.bits_iff]
    refine and_congr_right fun _ => ?_
    cases hc : c.run b s with
    | error e => exact iff_of_true (fun _ h => nomatch h) (fun _ h => nomatch h)
    | ok s' =>
      simp only [Except.ok.injEq, forall_eq']
      exact ih

/-- `setup_pmm` and the calls after it stay in the bitmap exactly when none of them comes upon the
page index `MAX_PAGES`, which all five guards let through. -/
theorem bitmap_inBounds_iff (b : BootInfo) (ram : Nat → BitVec 8) (cs : List PmmCall) :
    (∀ i ∈ systemBits b ram cs, InBitmap i) ↔
      ((foundChunks b.memmap).length ≤ maxSegments → SetupGuarded b) ∧
        ∀ p s, setupPmm b ram = .ok (p, s) → CallsGuarded b s cs := by
  rw [systemBits, List.forall_mem_append, setupBits_iff]
  refine and_congr_right fun _ => ?_
  cases hs : setupPmm b ram with
  | error e => exact iff_of_true (fun _ h => nomatch h) (fun _ _ h => nomatch h)
  | ok r =>
    obtain ⟨p, s⟩ := r
    constructor
    · rintro h _ _ he
      cases he
      exact (callsBits_iff cs).1 h
    · exact fun h => (callsBits_iff cs).2 (h p s rfl)

/-- With the map of `oneChunk`, freeing page `MAX_PAGES` reads the byte after the bitmap. -/
theorem oneChunk_overrun :
    ¬∀ i ∈ systemBits oneChunk (fun _ => 0) [.ppFreeIndex maxPages], InBitmap i := by
  obtain ⟨s, hs, _⟩ := oneChunk_setup fun _ => 0
  intro h
  have hin := h maxPages (by rw [systemBits, hs]; simp [callsBits, PmmCall.bits, ppFreeIndexBits])
  exact Nat.lt_irrefl _ (inBitmap_iff.1 hin)

end AdaOS
