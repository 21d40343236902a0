import AdaOS.MappingSearch
import AdaOS.PmmClimb

namespace AdaOS
set_option autoImplicit true

variable {s s' : Pmm} {hit : PageMapping → Bool}

/-- A search that returns makes the same probes with more fuel. -/
theorem retry_succ (h : retry ms n hit fuel cursor wrapped = .ok r) :
    retry ms n hit (fuel + 1) cursor wrapped = .ok r := by
  induction fuel generalizing cursor wrapped with
  | zero => cases h
  | succ fuel ih =>
    rw [retry] at h ⊢
    split
    · next hc =>
      rw [if_pos hc] at h
      simp only at h ⊢
      split
      · next hh =>
        rw [if_pos hh] at h
        exact h
      · next hh =>
        rw [if_neg hh] at h
        split
        · next hn =>
          rw [if_pos hn] at h
          exact ih h
        · next hn =>
          rw [if_neg hn] at h
          split
          · next hw =>
            rw [if_pos hw] at h
            exact h
          · next hw =>
            rw [if_neg hw] at h
            exact ih h
    · next hc =>
      rw [if_neg hc] at h
      cases h

theorem retry_fuel (h : retry ms n hit fuel cursor wrapped = .ok r) (hf : fuel ≤ fuel') :
    retry ms n hit fuel' cursor wrapped = .ok r := by
  induction hf with
  | refl => exact h
  | step _ ih => exact retry_succ ih

theorem retry_complete (hr : s.Ready) (hz : hit .zero = false) :
    ∃ r, ∃ c ≤ s.desc.chunkCount + 1,
      (∀ fuel, 2 * (s.desc.chunkCount + 2) ≤ fuel →
        retry s.pageMappings s.desc.chunkCount hit fuel s.lastUsedMapping false = .ok (r, c)) ∧
      (r.isSome = true ↔ ∃ m ∈ s.pageMappings, hit m = true) := by
  rcases searchMappings_cases hr hit hz with ⟨m, hm, hh, c, hc, he⟩ | ⟨hno, c, hc, he⟩
  · exact ⟨some m, c, hc, fun fuel hf => retry_fuel he hf, fun _ => ⟨m, hm, hh⟩, fun _ => rfl⟩
  · refine ⟨none, c, hc, fun fuel hf => retry_fuel he hf, (fun h => by cases h), ?_⟩
    rintro ⟨m, hm, hh⟩
    rw [hno m hm] at hh
    cases hh

theorem pageToPtr_complete (hr : s.Ready) (hw : ∀ m ∈ s.pageMappings, m.Unwrapped) (i : Nat) :
    ∃ p, ∃ c ≤ s.desc.chunkCount + 1, pageToPtr s i = .ok (p, { s with lastUsedMapping := c }) ∧
      (p ≠ 0 ↔ i ≤ maxPages ∧ ∃ m ∈ s.pageMappings, m.holdsIndex i = true) := by
  rcases Nat.lt_or_ge maxPages i with hi | hi
  · refine ⟨0, s.lastUsedMapping, hr.cursor, pageToPtr_big hi, fun h => (h rfl).elim, ?_⟩
    rintro ⟨hle, _⟩
    exact absurd hi (Nat.not_lt_of_le hle)
  · obtain ⟨p, c, hc, he, ⟨m, hm, hh, rfl⟩ | ⟨hno, rfl⟩⟩ := pageToPtr_cases hr hi
    · have hlt := (hw m hm).lt_ptrOf hh
      exact ⟨_, c, hc, he, fun _ => ⟨hi, m, hm, hh⟩, fun _ => Nat.ne_of_gt (Nat.zero_lt_of_lt hlt)⟩
    · refine ⟨0, c, hc, he, fun h => (h rfl).elim, ?_⟩
      rintro ⟨_, m, hm, hh⟩
      rw [hno m hm] at hh
      cases hh

theorem ptrToPage_complete (hr : s.Ready)
    (hw : ∀ m ∈ s.pageMappings, m.Unwrapped ∧ m.pageEndIndex < 2 ^ 64) (p : Nat) :
    ∃ i, ∃ c ≤ s.desc.chunkCount + 1, ptrToPage s p = .ok (i, { s with lastUsedMapping := c }) ∧
      (i ≠ noPage ↔ p ≠ 0 ∧ p % pageSize = 0 ∧ ∃ m ∈ s.pageMappings, m.holdsPtr p = true) := by
  by_cases hp : p = 0 ∨ p % pageSize ≠ 0
  · refine ⟨noPage, s.lastUsedMapping, hr.cursor, ptrToPage_bad hp, fun h => (h rfl).elim, ?_⟩
    rintro ⟨hne, ha, _⟩
    rcases hp with hp | hp
    · exact (hne hp).elim
    · exact (hp ha).elim
  · rw [not_or, not_not] at hp
    obtain ⟨hne, ha⟩ := hp
    obtain ⟨i, c, hc, he, ⟨m, hm, hh, rfl⟩ | ⟨hno, rfl⟩⟩ := ptrToPage_cases hr hne ha
    · obtain ⟨hu, hend⟩ := hw m hm
      have hlt := hu.indexOf_lt hh
      refine ⟨_, c, hc, he, fun _ => ⟨hne, ha, m, hm, hh⟩, fun _ => ?_⟩
      rw [noPage]
      omega
    · refine ⟨noPage, c, hc, he, fun h => (h rfl).elim, ?_⟩
      rintro ⟨_, _, m, hm, hh⟩
      rw [hno m hm] at hh
      cases hh

/-- The state `generate_page_mapping` leaves for the map of `highKernel`. -/
def highTable : Pmm :=
  { Pmm.initial fun _ => 0 with
    pageMappings := highKernel.mappings
    desc := ⟨0x7fd9f000, 2, [⟨0x1000, 0xa0000⟩, ⟨0x100000, 0x7fe00000⟩]⟩ }

theorem highTable_ready : highTable.Ready where
  slots := congrArg List.length highKernel_mappings
  room := by decide
  cursor := by decide

theorem highTable_regular : ∀ m ∈ highTable.pageMappings, m.Regular :=
  highKernel_admissible.mapping_regular

/-- Both searches end, keep the cursor on the table, and find exactly what the table has. -/
theorem searches_complete (hr : s.Ready)
    (hw : ∀ m ∈ s.pageMappings, m.Unwrapped ∧ m.pageEndIndex < 2 ^ 64) :
    (∀ i, ∃ r, ∃ c ≤ s.desc.chunkCount + 1,
      (∀ fuel, 2 * (s.desc.chunkCount + 2) ≤ fuel →
        retry s.pageMappings s.desc.chunkCount (·.holdsIndex i) fuel s.lastUsedMapping false =
          .ok (r, c)) ∧
      (r.isSome = true ↔ ∃ m ∈ s.pageMappings, m.pageStartIndex < i ∧ i < m.pageEndIndex)) ∧
    (∀ i, ∃ p, ∃ c ≤ s.desc.chunkCount + 1,
      pageToPtr s i = .ok (p, { s with lastUsedMapping := c }) ∧
      (p ≠ 0 ↔ i ≤ maxPages ∧
        ∃ m ∈ s.pageMappings, m.pageStartIndex < i ∧ i < m.pageEndIndex)) ∧
    (∀ p, ∃ r, ∃ c ≤ s.desc.chunkCount + 1,
      (∀ fuel, 2 * (s.desc.chunkCount + 2) ≤ fuel →
        retry s.pageMappings s.desc.chunkCount (·.holdsPtr p) fuel s.lastUsedMapping false =
          .ok (r, c)) ∧
      (r.isSome = true ↔ ∃ m ∈ s.pageMappings, m.offset < p ∧
        p < m.offset + (m.pageEndIndex - m.pageStartIndex) * pageSize)) ∧
    (∀ p, ∃ i, ∃ c ≤ s.desc.chunkCount + 1,
      ptrToPage s p = .ok (i, { s with lastUsedMapping := c }) ∧
      (i ≠ noPage ↔ p ≠ 0 ∧ p % pageSize = 0 ∧ ∃ m ∈ s.pageMappings, m.offset < p ∧
        p < m.offset + (m.pageEndIndex - m.pageStartIndex) * pageSize)) := by
  have hptr : ∀ p, (∃ m ∈ s.pageMappings, m.holdsPtr p = true) ↔ ∃ m ∈ s.pageMappings,
      m.offset < p ∧ p < m.offset + (m.pageEndIndex - m.pageStartIndex) * pageSize := by
    intro p
    refine exists_congr fun m => and_congr_right fun hm => ?_
    exact (hw m hm).1.holdsPtr_iff
  simp only [← holdsIndex_iff, ← hptr]
  exact ⟨fun i => retry_complete hr (holdsIndex_zero i),
    fun i => pageToPtr_complete hr (fun m hm => (hw m hm).1) i,
    fun p => retry_complete hr (holdsPtr_zero p), fun p => ptrToPage_complete hr hw p⟩

/-- Index 163 lies in both windows of `highTable`. -/
theorem searches_complete_highTable : ∃ p, ∃ c ≤ 3,
    pageToPtr highTable 163 = .ok (p, { highTable with lastUsedMapping := c }) ∧ p ≠ 0 := by
  have hw : ∀ m ∈ highTable.pageMappings, m.Unwrapped ∧ m.pageEndIndex < 2 ^ 64 := by
    intro m hm
    refine ⟨(highTable_regular m hm).unwrapped, ?_⟩
    simp only [highTable, highKernel_mappings, List.mem_cons, List.not_mem_nil, or_false] at hm
    rcases hm with rfl | rfl <;> decide
  obtain ⟨p, c, hc, he, hp⟩ := (searches_complete highTable_ready hw).2.1 163
  refine ⟨p, c, hc, he, hp.2 ⟨by decide, ⟨0x100000, 0, 4096⟩, ?_, by decide, by decide⟩⟩
  rw [highTable, highKernel_mappings]
  exact List.mem_cons_self ..

theorem searchMappings_stops (hr : s.Ready) (hit : PageMapping → Bool) (hz : hit .zero = false)
    (h : searchMappings s hit = .ok (some m, c)) :
    c ≤ s.desc.chunkCount + 1 ∧ m = s.slot c ∧ m ∈ s.pageMappings ∧ hit m = true := by
  obtain ⟨⟨r, c'⟩, he, hle, hsome, _⟩ := searchMappings_ok hr hit
  rw [h] at he
  cases he
  obtain ⟨hs, hh⟩ := hsome m rfl
  exact ⟨hle, hs, hs ▸ Pmm.slot_mem hit hz (hs ▸ hh), hh⟩

theorem pageToPtr_here (hr : s.Ready) (hi : i ≤ maxPages)
    (hh : (s.slot s.lastUsedMapping).holdsIndex i = true) :
    pageToPtr s i = .ok ((s.slot s.lastUsedMapping).ptrOf i, s) :=
  pageToPtr_found hi (searchMappings_here hr (·.holdsIndex i) hh)

theorem ptrToPage_here (hr : s.Ready) (hp : p ≠ 0) (ha : p % pageSize = 0)
    (hh : (s.slot s.lastUsedMapping).holdsPtr p = true) :
    ptrToPage s p = .ok ((s.slot s.lastUsedMapping).indexOf p, s) :=
  ptrToPage_found hp ha (searchMappings_here hr (·.holdsPtr p) hh)

theorem pageToPtr_stops (hr : s.Ready) (h : pageToPtr s i = .ok (p, s')) (hp : p ≠ 0) :
    i ≤ maxPages ∧ s'.Ready ∧ s'.slot s'.lastUsedMapping ∈ s.pageMappings ∧
      (s'.slot s'.lastUsedMapping).holdsIndex i = true ∧
      p = (s'.slot s'.lastUsedMapping).ptrOf i := by
  rcases Nat.lt_or_ge maxPages i with hi | hi
  · rw [pageToPtr_big hi] at h
    cases h
    exact (hp rfl).elim
  · rw [pageToPtr, if_neg (Nat.not_lt_of_le hi)] at h
    obtain ⟨⟨r, c⟩, hs, h⟩ := bind_ok h
    cases r with
    | none =>
      cases h
      exact (hp rfl).elim
    | some m =>
      cases h
      obtain ⟨hc, rfl, hm, hh⟩ := searchMappings_stops hr (·.holdsIndex i) (holdsIndex_zero i) hs
      exact ⟨hi, ⟨hr.slots, hr.room, hc⟩, hm, hh, rfl⟩

theorem ptrToPage_stops (hr : s.Ready) (h : ptrToPage s p = .ok (i, s')) (hi : i ≠ noPage) :
    p ≠ 0 ∧ p % pageSize = 0 ∧ s'.Ready ∧ s'.slot s'.lastUsedMapping ∈ s.pageMappings ∧
      (s'.slot s'.lastUsedMapping).holdsPtr p = true ∧
      i = (s'.slot s'.lastUsedMapping).indexOf p := by
  by_cases hp : p = 0 ∨ p % pageSize ≠ 0
  · rw [ptrToPage_bad hp] at h
    cases h
    exact (hi rfl).elim
  · rw [not_or, not_not] at hp
    obtain ⟨hne, ha⟩ := hp
    rw [ptrToPage, if_neg hne, if_neg (not_not_intro ha)] at h
    obtain ⟨⟨r, c⟩, hs, h⟩ := bind_ok h
    cases r with
    | none =>
      cases h
      exact (hi rfl).elim
    | some m =>
      cases h
      obtain ⟨hc, rfl, hm, hh⟩ := searchMappings_stops hr (·.holdsPtr p) (holdsPtr_zero p) hs
      exact ⟨hne, ha, ⟨hr.slots, hr.room, hc⟩, hm, hh, rfl⟩

/-- Each translation undoes the other when it comes next, without moving the cursor, even where
mappings overlap. -/
theorem translation_round_trip (hr : s.Ready)
    (hw : ∀ m ∈ s.pageMappings, m.Unwrapped ∧ pageSize ∣ m.offset) :
    (∀ i p s', pageToPtr s i = .ok (p, s') → p ≠ 0 → ptrToPage s' p = .ok (i, s')) ∧
    (∀ p i s', ptrToPage s p = .ok (i, s') → i ≠ noPage → i ≤ maxPages →
      pageToPtr s' i = .ok (p, s')) := by
  refine ⟨fun i p s' h hp => ?_, fun p i s' h hne hi => ?_⟩
  · obtain ⟨_, hr', hm, hh, rfl⟩ := pageToPtr_stops hr h hp
    obtain ⟨hu, ho⟩ := hw _ hm
    have ha : (s'.slot s'.lastUsedMapping).ptrOf i % pageSize = 0 := by
      rw [hu.ptrOf_eq hh]
      exact Nat.mod_eq_zero_of_dvd (Nat.dvd_add ho (Nat.dvd_mul_left _ _))
    have he := ptrToPage_here hr' hp ha (hu.holdsPtr_ptrOf hh)
    rwa [hu.indexOf_ptrOf hh] at he
  · obtain ⟨_, ha, hr', hm, hh, rfl⟩ := ptrToPage_stops hr h hne
    obtain ⟨hu, ho⟩ := hw _ hm
    obtain ⟨hheld, hback⟩ := hu.ptrOf_indexOf ho hh ha
    have he := pageToPtr_here hr' hi hheld
    rwa [hback] at he

theorem translation_round_trip_highTable : ∃ p s', pageToPtr highTable 163 = .ok (p, s') ∧
    ptrToPage s' p = .ok (163, s') ∧ pageToPtr s' 163 = .ok (p, s') := by
  have hw : ∀ m ∈ highTable.pageMappings, m.Unwrapped ∧ pageSize ∣ m.offset := fun m hm =>
    ⟨(highTable_regular m hm).unwrapped, (highTable_regular m hm).aligned⟩
  have hzero : highTable.slot highTable.lastUsedMapping = ⟨0x100000, 0, 4096⟩ := by
    change highKernel.mappings.getD 0 .zero = _
    rw [highKernel_mappings, List.getD_cons_zero]
  have he := pageToPtr_here (i := 163) highTable_ready (by decide) (by rw [hzero]; rfl)
  rw [hzero] at he
  obtain ⟨hforth, hback⟩ := translation_round_trip highTable_ready hw
  have hp := hforth 163 _ _ he (by decide)
  exact ⟨_, _, he, hp, hback _ _ _ hp (by decide) (by decide)⟩

end AdaOS
