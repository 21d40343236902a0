import AdaOS.BitmapBounds

namespace AdaOS
set_option autoImplicit true

variable {b : BootInfo} {s s' s₁ s₂ : Pmm} {c : PmmCall}

/-- An access outside the bitmap stops the call. -/
theorem scanFree_faults (h : ∃ k ∈ scanned s i n, ¬InBitmap k) :
    scanFree s i n = .error .outOfBounds := by
  induction n generalizing i with
  | zero =>
    obtain ⟨k, hk, _⟩ := h
    cases hk
  | succ n ih =>
    obtain ⟨k, hk, hout⟩ := h
    rw [scanned, List.mem_cons] at hk
    rw [scanFree]
    by_cases hi : InBitmap i
    · rw [bind_of_ok (pageFree_eq (inBitmap_iff.1 hi))]
      rcases hk with rfl | hk
      · exact absurd hi hout
      · cases hb : s.pageBitmap i with
        | false =>
          rw [hb] at hk
          cases hk
        | true =>
          rw [hb] at hk
          exact ih ⟨k, hk, hout⟩
    · have hf : pageFree s i = .error .outOfBounds := if_neg hi
      rw [hf]
      rfl

theorem getFreePage_faults (h : ∃ k ∈ getFreePageBits b s, ¬InBitmap k) :
    getFreePage b s = .error .outOfBounds := by
  obtain ⟨k, hk, hout⟩ := h
  rw [getFreePageBits, List.mem_cons] at hk
  rw [getFreePage]
  by_cases hi : InBitmap (startPage b s + 1)
  · simp only [bind_of_ok (pageFree_eq (inBitmap_iff.1 hi))]
    rcases hk with rfl | hk
    · exact absurd hi hout
    · cases hb : s.pageBitmap (startPage b s + 1) with
      | false =>
        rw [hb] at hk
        cases hk
      | true =>
        rw [hb] at hk
        simp only [Bool.not_true, Bool.false_eq_true, ↓reduceIte]
        rw [scanFree_faults ⟨k, hk, hout⟩]
        rfl
  · have hf : pageFree s (startPage b s + 1) = .error .outOfBounds := if_neg hi
    simp only [hf]
    rfl

theorem ppAllocIndex_faults (h : ∃ k ∈ ppAllocIndexBits b i, ¬InBitmap k) :
    ppAllocIndex b s i = .error .outOfBounds := by
  obtain ⟨k, hk, hout⟩ := h
  rw [ppAllocIndexBits] at hk
  rw [ppAllocIndex]
  split_ifs at hk ⊢
  · cases hk
  · cases hk
  · rw [List.mem_singleton.1 hk] at hout
    have hf : pageFree s i = .error .outOfBounds := if_neg hout
    rw [hf]
    rfl

theorem ppFreeIndex_faults (h : ∃ k ∈ ppFreeIndexBits i, ¬InBitmap k) :
    ppFreeIndex s i = .error .outOfBounds := by
  obtain ⟨k, hk, hout⟩ := h
  rw [ppFreeIndexBits] at hk
  rw [ppFreeIndex]
  split_ifs at hk ⊢
  · cases hk
  · rw [List.mem_singleton.1 hk] at hout
    have hf : pageFree s i = .error .outOfBounds := if_neg hout
    rw [hf]
    rfl

/-- The model's calls make the accesses listed: one outside the bitmap stops them. -/
theorem PmmCall.run_faults (h : ∃ k ∈ c.bits b s, ¬InBitmap k) :
    c.run b s = .error .outOfBounds := by
  cases c with
  | ppAlloc =>
    obtain ⟨k, hk, hout⟩ := h
    rw [bits, List.mem_append] at hk
    rw [run, AdaOS.ppAlloc]
    rcases hk with hk | hk
    · rw [getFreePage_faults ⟨k, hk, hout⟩]
      rfl
    · cases hg : AdaOS.getFreePage b s with
      | error e =>
        rw [hg] at hk
        cases hk
      | ok r =>
        rw [hg] at hk
        simp only [bind, Except.bind]
        rw [ppAllocIndex_faults ⟨k, hk, hout⟩]
        rfl
  | ppAllocIndex i =>
    rw [run, ppAllocIndex_faults h]
    rfl
  | ppFree p =>
    obtain ⟨k, hk, hout⟩ := h
    rw [bits] at hk
    rw [run, AdaOS.ppFree]
    cases hp : AdaOS.ptrToPage s p with
    | error e =>
      rw [hp] at hk
      cases hk
    | ok r =>
      rw [hp] at hk
      exact ppFreeIndex_faults ⟨k, hk, hout⟩
  | ppFreeIndex i => exact ppFreeIndex_faults h
  | pageToPtr i =>
    obtain ⟨k, hk, _⟩ := h
    cases hk
  | ptrToPage p =>
    obtain ⟨k, hk, _⟩ := h
    cases hk
  | getFreePage =>
    rw [run, getFreePage_faults h]
    rfl

theorem scanFree_inBounds (h : ∀ k ∈ scanned s i n, InBitmap k) : ∃ r, scanFree s i n = .ok r := by
  induction n generalizing i with
  | zero => exact ⟨none, rfl⟩
  | succ n ih =>
    rw [scanned, List.forall_mem_cons] at h
    rw [scanFree, bind_of_ok (pageFree_eq (inBitmap_iff.1 h.1))]
    cases hb : s.pageBitmap i with
    | false => exact ⟨some i, rfl⟩
    | true =>
      rw [hb] at h
      exact ih h.2

theorem getFreePage_inBounds (h : ∀ k ∈ getFreePageBits b s, InBitmap k) :
    getFreePage b s ≠ .error .outOfBounds := by
  rw [getFreePageBits, List.forall_mem_cons] at h
  rw [getFreePage]
  simp only [bind_of_ok (pageFree_eq (inBitmap_iff.1 h.1))]
  cases hb : s.pageBitmap (startPage b s + 1) with
  | false =>
    intro he
    cases he
  | true =>
    rw [hb] at h
    obtain ⟨r, hr⟩ := scanFree_inBounds h.2
    simp only [Bool.not_true, Bool.false_eq_true, ↓reduceIte, bind_of_ok hr]
    cases r with
    | none =>
      intro he
      cases he
    | some i =>
      intro he
      cases he

theorem ppAllocIndex_inBounds (hr : s.Ready) (h : ∀ k ∈ ppAllocIndexBits b i, InBitmap k) :
    ppAllocIndex b s i ≠ .error .outOfBounds := by
  rw [ppAllocIndexBits] at h
  split_ifs at h with hb hi
  · rw [ppAllocIndex, if_pos hb]
    intro he
    cases he
  · rw [ppAllocIndex, if_neg hb, if_pos hi]
    intro he
    cases he
  · rw [List.forall_mem_singleton, inBitmap_iff] at h
    cases hclear : s.pageBitmap i with
    | false =>
      obtain ⟨p, c, _, he, _⟩ := ppAllocIndex_located hr (Nat.lt_of_not_le hb) h hclear
      rw [he]
      intro he
      cases he
    | true =>
      rw [ppAllocIndex, if_neg hb, if_neg hi, bind_of_ok (pageFree_eq h), hclear]
      intro he
      cases he

/-- On a table the searches stay in, a call faults for no other reason. -/
theorem PmmCall.run_inBounds (hr : s.Ready) (h : ∀ k ∈ c.bits b s, InBitmap k) :
    c.run b s ≠ .error .outOfBounds := by
  have hmap {α : Type} {x : Except Fault (α × Pmm)} (hx : x ≠ .error .outOfBounds) :
      x.map Prod.snd ≠ .error .outOfBounds := by
    cases x with
    | ok r =>
      intro he
      cases he
    | error e =>
      intro he
      cases he
      exact hx rfl
  cases c with
  | ppAlloc =>
    rw [bits, List.forall_mem_append] at h
    apply hmap
    rw [AdaOS.ppAlloc]
    cases hg : AdaOS.getFreePage b s with
    | error e =>
      have hfree := getFreePage_inBounds h.1
      rw [hg] at hfree
      intro he
      cases he
      exact hfree rfl
    | ok r =>
      obtain ⟨i, s'⟩ := r
      obtain ⟨_, rfl⟩ := getFreePage_ok hg
      rw [hg] at h
      exact ppAllocIndex_inBounds ⟨hr.slots, hr.room, hr.cursor⟩ h.2
  | ppAllocIndex i => exact hmap (ppAllocIndex_inBounds hr h)
  | ppFree p =>
    rw [run, AdaOS.ppFree]
    rw [bits] at h
    cases hp : AdaOS.ptrToPage s p with
    | error e =>
      have hsearch := hr.ptrToPage_inBounds p
      rw [hp] at hsearch
      intro he
      cases he
      exact hsearch rfl
    | ok r =>
      rw [hp] at h
      obtain ⟨s', hf⟩ := ppFreeIndex_returns (s := r.2) (ppFreeIndexBits_iff.1 h)
      simp only [bind, Except.bind, hf]
      intro he
      cases he
  | ppFreeIndex i =>
    obtain ⟨s', hf⟩ := ppFreeIndex_returns (s := s) (ppFreeIndexBits_iff.1 h)
    rw [run, hf]
    intro he
    cases he
  | pageToPtr i => exact hmap (hr.pageToPtr_inBounds i)
  | ptrToPage p => exact hmap (hr.ptrToPage_inBounds p)
  | getFreePage => exact hmap (getFreePage_inBounds h)

/-- The accesses listed are the model's own: a call faults exactly when one of them is outside the
bitmap. -/
theorem PmmCall.run_fault_iff (hr : s.Ready) :
    c.run b s = .error .outOfBounds ↔ ∃ k ∈ c.bits b s, ¬InBitmap k := by
  constructor
  · intro he
    by_contra hno
    push Not at hno
    exact run_inBounds hr hno he
  · exact run_faults

theorem reservePages_faults (h : ∃ k ∈ reserveBits i n, ¬InBitmap k) :
    reservePages s i n = .error .outOfBounds := by
  have hin : ¬∀ k ∈ reserveBits i n, InBitmap k := by
    obtain ⟨k, hk, hout⟩ := h
    exact fun hall => hout (hall k hk)
  rw [reserveBits_iff, not_not] at hin
  clear h
  induction n generalizing s i with
  | zero => omega
  | succ n ih =>
    rw [reservePages]
    split
    · by_cases hi : i < maxPages
      · simp only [bind_of_ok (pageFree_eq hi), bind_of_ok (setUsed_eq hi)]
        apply ih
        omega
      · have hf : pageFree s i = .error .outOfBounds := if_neg fun h => hi (byte_lt_iff.1 h)
        rw [hf]
        rfl
    · omega

theorem reservePages_error (h : reservePages s i n = .error e) : e = .outOfBounds := by
  by_cases hin : ∀ k ∈ reserveBits i n, InBitmap k
  · obtain ⟨s', hs⟩ := reservePages_inBounds (s := s) hin
    rw [hs] at h
    cases h
  · push Not at hin
    rw [reservePages_faults hin] at h
    cases h
    rfl

theorem reservePages_bits (h : reservePages s i n = .ok s') :
    ∀ k ∈ reserveBits i n, InBitmap k := by
  intro k hk
  by_contra hout
  rw [reservePages_faults ⟨k, hk, hout⟩] at h
  cases h

theorem reservePmm_error (h : reservePmm b ram = .error e) : e = .outOfBounds := by
  rw [reservePmm_eq] at h
  rcases Nat.lt_or_ge maxSegments (foundChunks b.memmap).length with hfull | hfit
  · rw [mappedPmm_full hfull] at h
    cases h
    rfl
  · obtain ⟨s, hs, _⟩ := mappedPmm_ok ram hfit
    rw [bind_of_ok hs] at h
    cases hs₁ : reservePages s b.kernelFirstPage (b.kernelLastPage + 1 - b.kernelFirstPage) with
    | error e' =>
      obtain rfl := reservePages_error hs₁
      rw [hs₁] at h
      cases h
      rfl
    | ok s₁ =>
      rw [bind_of_ok hs₁] at h
      exact reservePages_error h

/-- `setup_pmm` makes the accesses listed too. -/
theorem setupPmm_fault_iff (hb : (foundChunks b.memmap).length ≤ 30) :
    setupPmm b ram = .error .outOfBounds ↔ ∃ k ∈ setupBits b ram, ¬InBitmap k := by
  have hself (s : Pmm) : PmmCall.ppAlloc.run b s = .error .outOfBounds ↔
      ppAlloc b s = .error .outOfBounds := by
    rw [PmmCall.run]
    cases ppAlloc b s <;> simp [Except.map]
  obtain ⟨s, hs, _⟩ := mappedPmm_ok (b := b) ram (Nat.le_trans hb (by decide))
  rw [setupPmm_eq, setupBits, hs]
  cases hr : reservePmm b ram with
  | error e =>
    obtain rfl := reservePmm_error hr
    refine iff_of_true rfl ?_
    by_contra hno
    push Not at hno
    simp only [List.append_assoc, List.mem_append] at hno
    obtain ⟨s₁, hs₁⟩ := reservePages_inBounds (s := s) fun k hk => hno k (.inl hk)
    obtain ⟨s₂, hs₂⟩ := reservePages_inBounds (s := s₁) fun k hk => hno k (.inr (.inl hk))
    rw [reservePmm_eq, bind_of_ok hs, bind_of_ok hs₁, hs₂] at hr
    cases hr
  | ok s₂ =>
    have hfew : FewChunks b := fun d hd => by
      rw [(getMemoryDescriptor_counts hd).2]
      exact hb
    have hready : s₂.Ready := (reservePmm_inv hfew hr).ready
    simp only [List.append_assoc, List.mem_append]
    rw [reservePmm_eq, bind_of_ok hs] at hr
    obtain ⟨s₁, hs₁, hs₂⟩ := bind_ok hr
    have hk := reservePages_bits hs₁
    have hm := reservePages_bits hs₂
    rw [bind_of_ok rfl, ← hself, PmmCall.run_fault_iff hready]
    constructor
    · rintro ⟨k, hk, hout⟩
      exact ⟨k, .inr (.inr hk), hout⟩
    · rintro ⟨k, hin | hin | hin, hout⟩
      · exact absurd (hk k hin) hout
      · exact absurd (hm k hin) hout
      · exact ⟨k, hin, hout⟩

end AdaOS
