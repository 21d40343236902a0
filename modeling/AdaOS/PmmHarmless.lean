import AdaOS.PmmAccounts

namespace AdaOS
set_option autoImplicit true

/-- There is nothing at `ptr` for `pp_free` to release: it is no pointer to a page, no mapping
holds it, or the page found for it is free. -/
inductive NothingAt (s : Pmm) (ptr : Nat) : Prop where
  | null : ptr = 0 → NothingAt s ptr
  | misaligned : ptr % pageSize ≠ 0 → NothingAt s ptr
  | outside : (∀ m ∈ s.pageMappings, m.holdsPtr ptr = false) → NothingAt s ptr
  | free : ptrToPage s ptr = .ok (i, s') → s.pageBitmap i = false → NothingAt s ptr

/-- No mapping goes past the end of the bitmap. -/
def Pmm.Covered (s : Pmm) : Prop := ∀ m ∈ s.pageMappings, m.pageEndIndex ≤ maxPages

variable {b : BootInfo} {s s' s₀ s₁ : Pmm} {m : PageMapping}

theorem indexOf_lt_end (h : m.holdsPtr p = true) : m.indexOf p < m.pageEndIndex := by
  have hwrap (x : Nat) : u64 x ≤ x := Nat.mod_le x _
  have hsegment : m.segmentSize ≤ (m.pageEndIndex - m.pageStartIndex) * pageSize := hwrap _
  have hend := hwrap (m.offset + m.segmentSize)
  simp only [PageMapping.holdsPtr, Bool.and_eq_true, decide_eq_true_eq] at h
  simp only [PageMapping.indexOf, pageSize] at *
  omega

theorem Pmm.Covered.index_lt (hcov : s.Covered) (hr : s.Ready)
    (h : ptrToPage s p = .ok (i, s')) (hi : i ≠ noPage) : i < maxPages := by
  obtain ⟨_, _, _, hm, hh, rfl⟩ := ptrToPage_stops hr h hi
  exact Nat.lt_of_lt_of_le (indexOf_lt_end hh) (hcov _ hm)

theorem noPage_gt : maxPages < noPage := by decide

theorem Pmm.Covered.index_ne (hcov : s.Covered) (hr : s.Ready)
    (h : ptrToPage s p = .ok (i, s')) : i ≠ maxPages := by
  rintro rfl
  exact Nat.lt_irrefl _ (hcov.index_lt hr h (Nat.ne_of_lt noPage_gt))

theorem ptrToPage_returns (hr : s.Ready) (p : Nat) : ∃ i s', ptrToPage s p = .ok (i, s') := by
  by_cases hp : p = 0 ∨ p % pageSize ≠ 0
  · exact ⟨_, _, ptrToPage_bad hp⟩
  · rw [not_or, not_not] at hp
    obtain ⟨i, c, _, he, _⟩ := ptrToPage_cases hr hp.1 hp.2
    exact ⟨i, _, he⟩

theorem NothingAt.unmarked (hn : NothingAt s p) (hr : s.Ready)
    (h : ptrToPage s p = .ok (i, s')) : i = noPage ∨ s.pageBitmap i = false := by
  by_cases hi : i = noPage
  · exact .inl hi
  · obtain ⟨hne, ha, _, hm, hh, _⟩ := ptrToPage_stops hr h hi
    cases hn with
    | null hz => exact absurd hz hne
    | misaligned hmis => exact absurd ha hmis
    | outside hout =>
      rw [hout _ hm] at hh
      cases hh
    | free hp hclear =>
      rw [h] at hp
      cases hp
      exact .inr hclear

theorem Pmm.Covered.nothingAt (hcov : s.Covered) (hr : s.Ready)
    (h : ptrToPage s p = .ok (noPage, s')) : NothingAt s' p := by
  obtain ⟨c, rfl⟩ := ptrToPage_cursor h
  by_cases hz : p = 0
  · exact .null hz
  · by_cases ha : p % pageSize = 0
    · obtain ⟨i, c', _, he, ⟨m, hm, hh, rfl⟩ | ⟨hno, _⟩⟩ := ptrToPage_cases hr hz ha
      · have hidx : noPage = m.indexOf p := congrArg Prod.fst (Except.ok.inj (h.symm.trans he))
        have hlt := Nat.lt_of_lt_of_le (indexOf_lt_end hh) (hcov m hm)
        rw [← hidx] at hlt
        exact absurd hlt (Nat.not_lt_of_lt noPage_gt)
      · exact .outside hno
    · exact .misaligned ha

theorem ppFree_stays (hr : s.Ready) (hcov : s.Covered) (hn : NothingAt s p) :
    ∃ s', ppFree s p = .ok s' ∧ Stays s s' := by
  obtain ⟨i, s₁, hp⟩ := ptrToPage_returns hr p
  obtain ⟨s', hf⟩ := ppFreeIndex_returns (s := s₁) (hcov.index_ne hr hp)
  refine ⟨s', ?_, ?_⟩
  · rw [ppFree, bind_of_ok hp]
    exact hf
  · obtain ⟨c, rfl⟩ := ptrToPage_cursor hp
    rcases ppFreeIndex_ok hf with ⟨rfl, _⟩ | ⟨hlt, hset, _⟩
    · exact ⟨rfl, rfl, rfl⟩
    · rcases hn.unmarked hr hp with rfl | hclear
      · exact absurd hlt (Nat.not_lt_of_lt noPage_gt)
      · have hfalse : false = true := hclear.symm.trans hset
        cases hfalse

theorem ppFree_nothingAt (hr : s.Ready) (hcov : s.Covered) (h : ppFree s p = .ok s') :
    NothingAt s' p := by
  obtain ⟨⟨i, s₁⟩, hp, hf⟩ := bind_ok h
  by_cases hi : i = noPage
  · rw [hi] at hp hf
    rcases ppFreeIndex_ok hf with ⟨rfl, _⟩ | ⟨hlt, _⟩
    · exact hcov.nothingAt hr hp
    · exact absurd hlt (Nat.not_lt_of_lt noPage_gt)
  · have hlt := hcov.index_lt hr hp hi
    obtain ⟨hz, ha, hr₁, _, hh, hidx⟩ := ptrToPage_stops hr hp hi
    have hclear : s'.pageBitmap i = false ∧ s'.Ready ∧
        s'.slot s'.lastUsedMapping = s₁.slot s₁.lastUsedMapping := by
      rcases ppFreeIndex_ok hf with ⟨rfl, hno⟩ | ⟨_, _, rfl⟩
      · refine ⟨?_, hr₁, rfl⟩
        by_contra hset
        exact hno ⟨hlt, Bool.eq_true_of_not_eq_false hset⟩
      · exact ⟨Function.update_self .., ⟨hr₁.slots, hr₁.room, hr₁.cursor⟩, rfl⟩
    obtain ⟨hclear, hr', hslot⟩ := hclear
    rw [hidx, ← hslot] at hclear
    rw [← hslot] at hh
    exact .free (ptrToPage_here hr' hz ha hh) hclear

/-- In every state after `setup_pmm`, `pp_free` changes nothing where there is nothing to release,
and a second `pp_free` of any pointer changes nothing. -/
theorem ppFree_harmless (hb : FewChunks b) (hs : setupPmm b ram = .ok (p₀, s₀))
    (hrun : PmmCalls b s₀ s) (hcov : s.Covered) (p : BitVec 64) :
    (NothingAt s p.toNat → ∃ s', ppFree s p.toNat = .ok s' ∧ Stays s s') ∧
      ∃ s' s'', ppFree s p.toNat = .ok s' ∧ ppFree s' p.toNat = .ok s'' ∧ Stays s' s'' := by
  have ht := hrun.tabled (setupPmm_tabled hb hs)
  refine ⟨ppFree_stays ht.ready hcov, ?_⟩
  obtain ⟨i, s₁, hp⟩ := ptrToPage_returns ht.ready p.toNat
  obtain ⟨s', hf⟩ := ppFreeIndex_returns (s := s₁) (hcov.index_ne ht.ready hp)
  have hfree : ppFree s p.toNat = .ok s' := by
    rw [ppFree, bind_of_ok hp]
    exact hf
  have ht' := ht.call (.ppFree p.toNat) hfree
  have hcov' : s'.Covered := by
    rw [Pmm.Covered, ht'.table, ← ht.table]
    exact hcov
  have hnothing := ppFree_nothingAt ht.ready hcov hfree
  obtain ⟨s'', hagain, hstays⟩ := ppFree_stays ht'.ready hcov' hnothing
  exact ⟨s', s'', hfree, hagain, hstays⟩

theorem ppFree_harmless_oneChunk : ∃ p₀ s₀, setupPmm oneChunk (fun _ => 0) = .ok (p₀, s₀) ∧
    (∃ s', ppFree s₀ 0x1000001 = .ok s' ∧ Stays s₀ s') ∧
    ∃ s' s'', ppFree s₀ 0x1002000 = .ok s' ∧ ppFree s' 0x1002000 = .ok s'' ∧ Stays s' s'' := by
  obtain ⟨s₀, hs, hclimb⟩ := oneChunk_setup fun _ => 0
  have hcov : s₀.Covered := by
    rw [Pmm.Covered, hclimb.table, oneChunk_mappings]
    decide
  have hb := oneChunk_admissible.manageable.few
  refine ⟨_, s₀, hs, ?_, ?_⟩
  · exact (ppFree_harmless hb hs .start hcov 0x1000001).1 (.misaligned (by decide))
  · exact (ppFree_harmless hb hs .start hcov 0x1002000).2

end AdaOS
