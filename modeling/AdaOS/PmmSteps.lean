import AdaOS.MappingSearch

namespace AdaOS
set_option autoImplicit true

variable {s s' : Pmm} {b : BootInfo}

/-- `i` is an index whose bit `get_free_page` can read and find clear. -/
def ClearPage (s : Pmm) (i : Nat) : Prop := 1 ≤ i ∧ i < maxPages ∧ s.pageBitmap i = false

theorem byte_lt_iff : i / 8 < maxPages / 8 ↔ i < maxPages := by
  simp only [maxPages]
  omega

theorem pageFree_ok (h : pageFree s i = .ok r) : i < maxPages ∧ r = !s.pageBitmap i := by
  rw [pageFree] at h
  split at h
  · next hlt =>
    cases h
    exact ⟨byte_lt_iff.1 hlt, rfl⟩
  · cases h

theorem pageFree_eq (hi : i < maxPages) : pageFree s i = .ok (!s.pageBitmap i) :=
  if_pos (byte_lt_iff.2 hi)

theorem setUsed_eq (hi : i < maxPages) :
    setUsed s i = .ok { s with
      pageBitmap := Function.update s.pageBitmap i true
      lastPageUsed := i
      freePages := s.freePages - 1
      usedPages := s.usedPages + 1 } :=
  if_pos (byte_lt_iff.2 hi)

theorem setFree_eq (hi : i < maxPages) :
    setFree s i = .ok { s with
      pageBitmap := Function.update s.pageBitmap i false
      freePages := s.freePages + 1
      usedPages := s.usedPages - 1 } :=
  if_pos (byte_lt_iff.2 hi)

/-- The scan stops at the first clear bit. -/
theorem scanFree_iff : scanFree s i n = .ok (some j) ↔
    i ≤ j ∧ j < i + n ∧ j < maxPages ∧ s.pageBitmap j = false ∧
      ∀ k, i ≤ k → k < j → s.pageBitmap k = true := by
  induction n generalizing i with
  | zero =>
    refine ⟨fun h => (by cases h), fun h => ?_⟩
    omega
  | succ n ih =>
    rw [scanFree]
    by_cases hi : i < maxPages
    · rw [bind_of_ok (pageFree_eq hi)]
      cases hb : s.pageBitmap i with
      | false =>
        simp only [Bool.not_false, ↓reduceIte, Except.ok.injEq, Option.some.injEq]
        constructor
        · rintro rfl
          exact ⟨Nat.le_refl _, by omega, hi, hb, fun k hk hlt => by omega⟩
        · rintro ⟨hle, _, _, _, hset⟩
          by_contra hne
          have hset := hset i (Nat.le_refl _) (by omega)
          rw [hb] at hset
          cases hset
      | true =>
        simp only [Bool.not_true, Bool.false_eq_true, ↓reduceIte]
        rw [ih]
        constructor
        · rintro ⟨hle, hlt, hj, hclear, hset⟩
          refine ⟨by omega, by omega, hj, hclear, fun k hk hkj => ?_⟩
          rcases Nat.eq_or_lt_of_le hk with rfl | hlt'
          · exact hb
          · exact hset k hlt' hkj
        · rintro ⟨hle, hlt, hj, hclear, hset⟩
          have hne : i ≠ j := by
            rintro rfl
            rw [hb] at hclear
            cases hclear
          exact ⟨by omega, by omega, hj, hclear, fun k hk hkj => hset k (by omega) hkj⟩
    · have hf : pageFree s i = .error .outOfBounds := if_neg (fun h => hi (byte_lt_iff.1 h))
      rw [hf]
      refine ⟨fun h => (by cases h), fun h => ?_⟩
      omega

theorem scanFree_ok (hi : 1 ≤ i) (h : scanFree s i n = .ok (some j)) : ClearPage s j := by
  obtain ⟨hle, _, hj, hclear, _⟩ := scanFree_iff.1 h
  exact ⟨Nat.le_trans hi hle, hj, hclear⟩

theorem getFreePage_ok (h : getFreePage b s = .ok (i, s')) :
    ClearPage s i ∧ s' = { s with lastPageUsed := i } := by
  obtain ⟨free, hf, h⟩ := bind_ok h
  obtain ⟨hlt, rfl⟩ := pageFree_ok hf
  cases hb : s.pageBitmap (startPage b s + 1) with
  | false =>
    simp only [hb, Bool.not_false, ↓reduceIte, Except.ok.injEq, Prod.mk.injEq] at h
    obtain ⟨rfl, rfl⟩ := h
    exact ⟨⟨Nat.le_add_left _ _, hlt, hb⟩, rfl⟩
  | true =>
    simp only [hb, Bool.not_true, Bool.false_eq_true, ↓reduceIte] at h
    obtain ⟨r, hr, h⟩ := bind_ok h
    cases r with
    | none => cases h
    | some j =>
      simp only [Except.ok.injEq, Prod.mk.injEq] at h
      obtain ⟨rfl, rfl⟩ := h
      exact ⟨scanFree_ok (Nat.le_refl 1) hr, rfl⟩

/-- The state after `_pp_alloc` took index `i` and the search left the cursor at `c`. -/
def Pmm.taken (s : Pmm) (i c p : Nat) : Pmm :=
  { s with
    pageBitmap := Function.update s.pageBitmap i true
    lastPageUsed := i
    freePages := s.freePages - 1
    usedPages := s.usedPages + 1
    lastUsedMapping := c
    ram := clearPage s.ram p }

/-- Where the mapping table of `s` puts index `i`: an address, or 0 when no mapping holds it. -/
def Located (s : Pmm) (i p : Nat) : Prop :=
  (∃ m ∈ s.pageMappings, m.holdsIndex i = true ∧ p = m.ptrOf i) ∨
    (∀ m ∈ s.pageMappings, m.holdsIndex i = false) ∧ p = 0

/-- The state in which `_pp_alloc` looks up the address of the index it has just marked. -/
def Pmm.marked (s : Pmm) (i : Nat) : Pmm :=
  { s with
    pageBitmap := Function.update s.pageBitmap i true
    lastPageUsed := i
    freePages := s.freePages - 1
    usedPages := s.usedPages + 1 }

theorem ppAllocIndex_eq (hb : i < b.physicalBase) (hi : i < maxPages)
    (hclear : s.pageBitmap i = false)
    (he : pageToPtr (s.marked i) i = .ok (p, { s.marked i with lastUsedMapping := c })) :
    ppAllocIndex b s i = .ok (p, s.taken i c p) := by
  rw [ppAllocIndex, if_neg (Nat.not_le_of_lt hb), if_neg (Nat.not_lt_of_lt hi)]
  rw [Pmm.marked] at he
  simp only [pageFree_eq hi, hclear, setUsed_eq hi, he, bind, Except.bind, Bool.not_false,
    ↓reduceIte, Pmm.taken]

theorem ppAllocIndex_located (hr : s.Ready) (hb : i < b.physicalBase) (hi : i < maxPages)
    (hclear : s.pageBitmap i = false) :
    ∃ p, ∃ c ≤ s.desc.chunkCount + 1,
      ppAllocIndex b s i = .ok (p, s.taken i c p) ∧ Located s i p := by
  have hr' : (s.marked i).Ready := ⟨hr.slots, hr.room, hr.cursor⟩
  obtain ⟨p, c, hle, he, hl⟩ := pageToPtr_cases hr' (Nat.le_of_lt hi)
  exact ⟨p, c, hle, ppAllocIndex_eq hb hi hclear he, hl⟩

/-- What `_pp_alloc` does when it returns, whatever the table. -/
theorem ppAllocIndex_ok (h : ppAllocIndex b s i = .ok (p, s')) :
    (p = 0 ∧ s' = s ∧ ¬(i < b.physicalBase ∧ i < maxPages ∧ s.pageBitmap i = false)) ∨
      (i < b.physicalBase ∧ i < maxPages ∧ s.pageBitmap i = false ∧ ∃ c, s' = s.taken i c p) := by
  rw [ppAllocIndex] at h
  split at h
  · next hb =>
    cases h
    exact .inl ⟨rfl, rfl, fun hn => Nat.not_lt_of_le hb hn.1⟩
  · next hb =>
    split at h
    · next hi =>
      cases h
      exact .inl ⟨rfl, rfl, fun hn => Nat.lt_asymm hi hn.2.1⟩
    · obtain ⟨free, hf, h⟩ := bind_ok h
      obtain ⟨hi, rfl⟩ := pageFree_ok hf
      cases hclear : s.pageBitmap i with
      | false =>
        simp only [hclear, Bool.not_false, ↓reduceIte] at h
        obtain ⟨mid, hmid, h⟩ := bind_ok h
        rw [setUsed_eq hi] at hmid
        cases hmid
        obtain ⟨⟨addr, s₁⟩, hp, h⟩ := bind_ok h
        obtain ⟨c, rfl⟩ := pageToPtr_cursor hp
        cases h
        exact .inr ⟨Nat.lt_of_not_le hb, hi, rfl, c, rfl⟩
      | true =>
        simp only [hclear, Bool.not_true, Bool.false_eq_true, ↓reduceIte] at h
        cases h
        exact .inl ⟨rfl, rfl, fun hn => nomatch hn.2.2⟩

theorem ppAllocIndex_cases (hr : s.Ready) (h : ppAllocIndex b s i = .ok (p, s')) :
    (p = 0 ∧ s' = s ∧ ¬(i < b.physicalBase ∧ i < maxPages ∧ s.pageBitmap i = false)) ∨
      (i < b.physicalBase ∧ i < maxPages ∧ s.pageBitmap i = false ∧
        ∃ c ≤ s.desc.chunkCount + 1, s' = s.taken i c p ∧ Located s i p) := by
  rcases ppAllocIndex_ok h with hrefused | ⟨hb, hi, hclear, _⟩
  · exact .inl hrefused
  · obtain ⟨q, c, hc, he, hl⟩ := ppAllocIndex_located hr hb hi hclear
    rw [h] at he
    cases he
    exact .inr ⟨hb, hi, hclear, c, hc, rfl, hl⟩

theorem ppAllocIndex_refused (hb : b.physicalBase ≤ i) : ppAllocIndex b s i = .ok (0, s) :=
  if_pos hb

theorem ppAlloc_cases (hr : s.Ready) (h : ppAlloc b s = .ok (p, s')) :
    ∃ i, getFreePage b s = .ok (i, { s with lastPageUsed := i }) ∧ ClearPage s i ∧
      ((b.physicalBase ≤ i ∧ p = 0 ∧ s' = { s with lastPageUsed := i }) ∨
        ∃ c ≤ s.desc.chunkCount + 1, s' = s.taken i c p ∧ Located s i p) := by
  obtain ⟨⟨i, s₁⟩, hg, h⟩ := bind_ok h
  obtain ⟨hi, rfl⟩ := getFreePage_ok hg
  refine ⟨i, hg, hi, ?_⟩
  simp only at h
  rcases Nat.lt_or_ge i b.physicalBase with hb | hb
  · obtain ⟨q, c, hc, he, hl⟩ :=
      ppAllocIndex_located (b := b) (s := { s with lastPageUsed := i }) (i := i)
        ⟨hr.slots, hr.room, hr.cursor⟩ hb hi.2.1 hi.2.2
    rw [he] at h
    cases h
    exact .inr ⟨c, hc, rfl, hl⟩
  · rw [ppAllocIndex_refused hb] at h
    cases h
    exact .inl ⟨hb, rfl, rfl⟩

theorem ppFreeIndex_returns (hi : i ≠ maxPages) : ∃ s', ppFreeIndex s i = .ok s' := by
  rw [ppFreeIndex]
  split
  · exact ⟨s, rfl⟩
  · next hle =>
    have hlt : i < maxPages := Nat.lt_of_le_of_ne (Nat.le_of_not_lt hle) hi
    rw [bind_of_ok (pageFree_eq hlt), setFree_eq hlt]
    split
    · exact ⟨_, rfl⟩
    · exact ⟨_, rfl⟩

theorem ppFreeIndex_ok (h : ppFreeIndex s i = .ok s') :
    (s' = s ∧ ¬(i < maxPages ∧ s.pageBitmap i = true)) ∨
      (i < maxPages ∧ s.pageBitmap i = true ∧
        s' = { s with
          pageBitmap := Function.update s.pageBitmap i false
          freePages := s.freePages + 1
          usedPages := s.usedPages - 1 }) := by
  rw [ppFreeIndex] at h
  split at h
  · next hi =>
    cases h
    exact .inl ⟨rfl, fun hn => Nat.lt_asymm hi hn.1⟩
  · obtain ⟨free, hf, h⟩ := bind_ok h
    obtain ⟨hi, rfl⟩ := pageFree_ok hf
    cases hset : s.pageBitmap i with
    | false =>
      simp only [hset, Bool.not_false, ↓reduceIte] at h
      cases h
      exact .inl ⟨rfl, fun hn => nomatch hn.2⟩
    | true =>
      simp only [hset, Bool.not_true, Bool.false_eq_true, ↓reduceIte, setFree_eq hi] at h
      cases h
      exact .inr ⟨hi, rfl, rfl⟩

theorem ppFreeIndex_clear (hi : i < maxPages) (hb : s.pageBitmap i = true) :
    ppFreeIndex s i = .ok { s with
      pageBitmap := Function.update s.pageBitmap i false
      freePages := s.freePages + 1
      usedPages := s.usedPages - 1 } := by
  rw [ppFreeIndex, if_neg (Nat.not_lt_of_lt hi)]
  simp only [pageFree_eq hi, hb, setFree_eq hi, bind, Except.bind, Bool.not_true,
    Bool.false_eq_true, ↓reduceIte]

end AdaOS
