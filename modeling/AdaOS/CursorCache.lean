import AdaOS.PmmCalls
import AdaOS.Translation

namespace AdaOS
set_option autoImplicit true

variable {b : BootInfo} {s s' s₀ : Pmm} {hit : PageMapping → Bool} {m m' : PageMapping}

/-- Mappings that share an index put it at one address, and mappings that share an address give
it one index. -/
structure WindowsConsistent (b : BootInfo) : Prop where
  index : ∀ m ∈ b.mappings, ∀ m' ∈ b.mappings, ∀ i ≤ maxPages,
    m.holdsIndex i = true → m'.holdsIndex i = true → m.ptrOf i = m'.ptrOf i
  ptr : ∀ m ∈ b.mappings, ∀ m' ∈ b.mappings, ∀ p, p % pageSize = 0 →
    m.holdsPtr p = true → m'.holdsPtr p = true → m.indexOf p = m'.indexOf p

/-- The translations give what they give when the search starts from mapping 0. -/
def CursorFree (s : Pmm) : Prop :=
  (∀ i, (pageToPtr s i).map Prod.fst =
    (pageToPtr { s with lastUsedMapping := 0 } i).map Prod.fst) ∧
  ∀ p, (ptrToPage s p).map Prod.fst =
    (ptrToPage { s with lastUsedMapping := 0 } p).map Prod.fst

theorem Pmm.Tabled.reset (h : s.Tabled b) : Pmm.Tabled b { s with lastUsedMapping := 0 } :=
  h.of_eq rfl rfl (Nat.zero_le _)

theorem WindowsConsistent.pageToPtr (hw : WindowsConsistent b) (h : s.Tabled b)
    (h' : s'.Tabled b) (i : Nat) :
    (pageToPtr s i).map Prod.fst = (AdaOS.pageToPtr s' i).map Prod.fst := by
  rcases Nat.lt_or_ge maxPages i with hi | hi
  · rw [pageToPtr_big hi, pageToPtr_big hi]
    rfl
  · obtain ⟨p, c, _, he, hp⟩ := pageToPtr_cases h.ready hi
    obtain ⟨p', c', _, he', hp'⟩ := pageToPtr_cases h'.ready hi
    rw [he, he']
    rw [h.table] at hp
    rw [h'.table] at hp'
    apply congrArg Except.ok
    change p = p'
    rcases hp with ⟨m, hm, hh, rfl⟩ | ⟨hno, rfl⟩ <;>
      rcases hp' with ⟨m', hm', hh', rfl⟩ | ⟨hno', rfl⟩
    · exact hw.index m hm m' hm' i hi hh hh'
    · rw [hno' m hm] at hh
      cases hh
    · rw [hno m' hm'] at hh'
      cases hh'
    · rfl

theorem WindowsConsistent.ptrToPage (hw : WindowsConsistent b) (h : s.Tabled b)
    (h' : s'.Tabled b) (p : Nat) :
    (ptrToPage s p).map Prod.fst = (AdaOS.ptrToPage s' p).map Prod.fst := by
  by_cases hp : p = 0 ∨ p % pageSize ≠ 0
  · rw [ptrToPage_bad hp, ptrToPage_bad hp]
    rfl
  · rw [not_or, not_not] at hp
    obtain ⟨hne, ha⟩ := hp
    obtain ⟨i, c, _, he, hi⟩ := ptrToPage_cases h.ready hne ha
    obtain ⟨i', c', _, he', hi'⟩ := ptrToPage_cases h'.ready hne ha
    rw [he, he']
    rw [h.table] at hi
    rw [h'.table] at hi'
    apply congrArg Except.ok
    change i = i'
    rcases hi with ⟨m, hm, hh, rfl⟩ | ⟨hno, rfl⟩ <;>
      rcases hi' with ⟨m', hm', hh', rfl⟩ | ⟨hno', rfl⟩
    · exact hw.ptr m hm m' hm' p ha hh hh'
    · rw [hno' m hm] at hh
      cases hh
    · rw [hno m' hm'] at hh'
      cases hh'
    · rfl

theorem WindowsConsistent.cursorFree (hw : WindowsConsistent b) (h : s.Tabled b) : CursorFree s :=
  ⟨fun i => hw.pageToPtr h h.reset i, fun p => hw.ptrToPage h h.reset p⟩

theorem pageMappingsOf_ends (hc : ∀ c ∈ chunks, c.Physical) :
    (pageMappingsOf used chunks).Pairwise fun m m' =>
      m'.pageStartIndex < m'.pageEndIndex → m.pageEndIndex < m'.pageEndIndex := by
  induction chunks generalizing used with
  | nil => exact List.Pairwise.nil
  | cons c chunks ih =>
    rw [List.forall_mem_cons] at hc
    refine List.pairwise_cons.2 ⟨fun m' hm' hlt => ?_, ih hc.2⟩
    obtain ⟨c', _, u, hu, rfl⟩ := mem_pageMappingsOf hm'
    exact pageMappingOf_end hc.1 hu hlt

theorem retry_reach (hr : s.Ready) (n : Nat) (hn : cursor + n = k)
    (hk : k ≤ s.desc.chunkCount + 1)
    (hclear : ∀ l, cursor ≤ l → l < k → hit (s.slot l) = false) (hh : hit (s.slot k) = true)
    (hf : n < fuel) :
    retry s.pageMappings s.desc.chunkCount hit fuel cursor wrapped = .ok (some (s.slot k), k) := by
  have hroom := hr.room
  induction n generalizing cursor fuel with
  | zero =>
    obtain rfl : cursor = k := hn
    obtain ⟨fuel, rfl⟩ : ∃ f, fuel = f + 1 := ⟨fuel - 1, by omega⟩
    exact retry_hit (by omega) hh
  | succ n ih =>
    obtain ⟨fuel, rfl⟩ : ∃ f, fuel = f + 1 := ⟨fuel - 1, by omega⟩
    have hmiss := hclear cursor (Nat.le_refl _) (by omega)
    rw [retry_next hr (by omega) hmiss]
    exact ih (by omega) (fun l hl hlt => hclear l (Nat.le_of_succ_le hl) hlt) (by omega)

theorem retry_miss (hr : s.Ready) (hno : ∀ k, hit (s.slot k) = false)
    (hc : cursor ≤ s.desc.chunkCount + 1)
    (h : retry s.pageMappings s.desc.chunkCount hit fuel cursor wrapped = .ok (r, c)) :
    c = s.desc.chunkCount + 1 := by
  induction fuel generalizing cursor wrapped with
  | zero => cases h
  | succ fuel ih =>
    rcases Nat.lt_or_ge s.desc.chunkCount cursor with hlt | hle
    · obtain rfl : cursor = s.desc.chunkCount + 1 := by omega
      rw [retry_last hr (hno _)] at h
      split at h
      · cases h
        rfl
      · exact ih (Nat.zero_le _) h
    · rw [retry_next hr hle (hno _)] at h
      exact ih (Nat.succ_le_succ hle) h

theorem Pmm.Ready.slot_past (hr : s.Ready) : s.slot (s.desc.chunkCount + 1) = .zero :=
  List.getD_eq_default _ _ (hr.slots ▸ Nat.le_succ _)

theorem Pmm.Ready.pageToPtr_zero (hr : s.Ready) :
    pageToPtr s 0 = .ok (0, { s with lastUsedMapping := s.desc.chunkCount + 1 }) := by
  have hno : ∀ m : PageMapping, m.holdsIndex 0 = false := by
    intro m
    simp [PageMapping.holdsIndex]
  obtain ⟨⟨r, c⟩, he, _, hsome, _⟩ := searchMappings_ok hr (·.holdsIndex 0)
  have hc := retry_miss hr (fun k => hno (s.slot k)) hr.cursor he
  cases r with
  | some m =>
    have hh := (hsome m rfl).2
    simp only [hno] at hh
    cases hh
  | none =>
    rw [pageToPtr, if_neg (by decide), he, hc]
    rfl

theorem searchMappings_past (hr : s.Ready) (hit : PageMapping → Bool)
    (hc : s.lastUsedMapping = s.desc.chunkCount + 1) (hz : hit .zero = false)
    (hk : k ≤ s.desc.chunkCount)
    (hclear : ∀ l < k, hit (s.slot l) = false) (hh : hit (s.slot k) = true) :
    searchMappings s hit = .ok (some (s.slot k), k) := by
  rw [searchMappings, hc, show 2 * (s.desc.chunkCount + 2) = 2 * s.desc.chunkCount + 3 + 1 by rfl,
    retry_last hr (by rw [hr.slot_past]; exact hz)]
  exact retry_reach hr k (Nat.zero_add k) (Nat.le_succ_of_le hk) (fun l _ hl => hclear l hl) hh
    (by omega)

theorem mapping_span (hm : m ∈ b.mappings) (hlt : m.pageStartIndex < m.pageEndIndex) :
    m.pageStartIndex + pageSize ≤ m.pageEndIndex := by
  obtain ⟨c, _, u, _, rfl⟩ := mem_pageMappingsOf hm
  obtain ⟨k, hk⟩ := alignUp_dvd (sub64 c.bounds c.base / pageSize) pageSize
  simp only [pageMappingOf, hk, pageSize] at *
  omega

/-- The cursor can be brought onto any mapping that holds an index below the end of the bitmap. -/
theorem PmmCalls.onSlot (h : s.Tabled b) (hb : Manageable b)
    (hend : ∀ m ∈ b.mappings, m.pageEndIndex ≤ maxPages + 1) (hm : m ∈ b.mappings)
    (hlt : m.pageStartIndex < m.pageEndIndex) (hr : PmmCalls b s₀ s) :
    ∃ k, PmmCalls b s₀ { s with lastUsedMapping := k } ∧ k ≤ s.desc.chunkCount + 1 ∧
      s.slot k = m := by
  have hspan := mapping_span hm hlt
  obtain ⟨k, hk, rfl⟩ := List.mem_iff_getElem.1 hm
  have hends : ∀ l (hl : l < k), (b.mappings[l]).pageEndIndex < (b.mappings[k]).pageEndIndex := by
    intro l hl
    have hp : b.mappings.Pairwise _ := pageMappingsOf_ends hb.chunk_physical
    exact List.pairwise_iff_getElem.1 hp l k (by omega) hk hl (by omega)
  have hslots := h.ready.slots
  rw [h.table] at hslots
  have hslot : ∀ l (hl : l < b.mappings.length), s.slot l = b.mappings[l] := by
    intro l hl
    rw [Pmm.slot, h.table, List.getD_eq_getElem _ _ hl]
  obtain ⟨s₁, hs₁⟩ : ∃ s₁, s₁ = { s with lastUsedMapping := s.desc.chunkCount + 1 } := ⟨_, rfl⟩
  have hr₁ : s₁.Ready := hs₁ ▸ ⟨h.ready.slots, h.ready.room, Nat.le_refl _⟩
  have hslot₁ : ∀ l, s₁.slot l = s.slot l := fun l => hs₁ ▸ rfl
  have hpast : PmmCalls b s₀ s₁ := by
    refine hr.call (c := .pageToPtr 0) ?_
    rw [PmmCall.run, h.ready.pageToPtr_zero, hs₁]
    rfl
  obtain ⟨i, hi⟩ : ∃ i, i + 1 = (b.mappings[k]).pageEndIndex :=
    ⟨(b.mappings[k]).pageEndIndex - 1, by omega⟩
  have hsearch := searchMappings_past (k := k) hr₁ (·.holdsIndex i) (by rw [hs₁])
    (holdsIndex_zero i) (by rw [hs₁]; exact Nat.le_of_lt (hslots ▸ hk))
    (fun l hl => by
      have hle := hends l hl
      rw [hslot₁, hslot l (by omega), Bool.eq_false_iff, Ne, holdsIndex_iff]
      omega)
    (by rw [hslot₁, hslot k hk, holdsIndex_iff]; simp only [pageSize] at hspan; omega)
  have hmax := hend _ hm
  refine ⟨k, ?_, by omega, hslot k hk⟩
  refine hpast.call (c := .pageToPtr i) ?_
  rw [PmmCall.run, pageToPtr_found (by omega) hsearch, hs₁]
  rfl

theorem WindowsConsistent.of_cursorFree (hb : Manageable b)
    (hend : ∀ m ∈ b.mappings, m.pageEndIndex ≤ maxPages + 1) (h₀ : s₀.Tabled b)
    (hfree : ∀ s, PmmCalls b s₀ s → CursorFree s) : WindowsConsistent b := by
  constructor
  · intro m hm m' hm' i hi hh hh'
    have hlt := holdsIndex_iff.1 hh
    have hlt' := holdsIndex_iff.1 hh'
    obtain ⟨k, hk, hle, rfl⟩ := PmmCalls.onSlot h₀ hb hend hm (by omega) .start
    obtain ⟨k', hk', hle', rfl⟩ := PmmCalls.onSlot h₀ hb hend hm' (by omega) .start
    have hr := (hk.tabled h₀).ready
    have hr' := (hk'.tabled h₀).ready
    have he := (hfree _ hk).1 i
    have he' := (hfree _ hk').1 i
    rw [pageToPtr_here hr hi hh] at he
    rw [pageToPtr_here hr' hi hh'] at he'
    have heq := he.trans he'.symm
    exact Except.ok.inj heq
  · intro m hm m' hm' p ha hh hh'
    have hlt := (hb.mapping_unwrapped m hm).lt_of_holdsPtr hh
    have hlt' := (hb.mapping_unwrapped m' hm').lt_of_holdsPtr hh'
    obtain ⟨k, hk, hle, rfl⟩ := PmmCalls.onSlot h₀ hb hend hm hlt .start
    obtain ⟨k', hk', hle', rfl⟩ := PmmCalls.onSlot h₀ hb hend hm' hlt' .start
    have hne := (hb.mapping_unwrapped _ hm).ne_zero_of_holdsPtr hh
    have hr := (hk.tabled h₀).ready
    have hr' := (hk'.tabled h₀).ready
    have he := (hfree _ hk).2 p
    have he' := (hfree _ hk').2 p
    rw [ptrToPage_here hr hne ha hh] at he
    rw [ptrToPage_here hr' hne ha hh'] at he'
    have heq := he.trans he'.symm
    exact Except.ok.inj heq

/-- With consistent windows no translation depends on the cursor, whatever calls left it. When no
window reaches past the end of the bitmap, nothing less will do. -/
theorem cursor_only_cache (hb : Manageable b) (hs : setupPmm b ram = .ok (p₀, s₀)) :
    (WindowsConsistent b → ∀ s, PmmCalls b s₀ s → CursorFree s) ∧
    ((∀ m ∈ b.mappings, m.pageEndIndex ≤ maxPages + 1) →
      (∀ s, PmmCalls b s₀ s → CursorFree s) → WindowsConsistent b) := by
  have h₀ := setupPmm_tabled hb.few hs
  exact ⟨fun hw s hr => hw.cursorFree (hr.tabled h₀),
    fun hend hfree => WindowsConsistent.of_cursorFree hb hend h₀ hfree⟩

theorem twoChunks_consistent : WindowsConsistent twoChunks := by
  constructor
  · intro m hm m' hm' i _ hh hh'
    rw [holdsIndex_iff] at hh hh'
    obtain rfl | rfl := twoChunks_window hm <;> obtain rfl | rfl := twoChunks_window hm'
    · rfl
    · simp only at hh hh'
      omega
    · simp only at hh hh'
      omega
    · rfl
  · intro m hm m' hm' p _ hh hh'
    have hp := ((twoChunks_admissible.mapping_regular m hm).unwrapped.holdsPtr_iff).1 hh
    have hp' := ((twoChunks_admissible.mapping_regular m' hm').unwrapped.holdsPtr_iff).1 hh'
    obtain rfl | rfl := twoChunks_window hm <;> obtain rfl | rfl := twoChunks_window hm'
    · rfl
    · simp only [pageSize] at hp hp'
      omega
    · simp only [pageSize] at hp hp'
      omega
    · rfl

/-- Index 5000 brings the cursor to the second window, and index 3 is where it was. -/
theorem cursor_only_cache_twoChunks : ∃ s₀ s,
    setupPmm twoChunks (fun _ => 0) = .ok (0x1002000, s₀) ∧ PmmCalls twoChunks s₀ s ∧
      s.lastUsedMapping = 1 ∧ CursorFree s ∧
      (pageToPtr s 3).map Prod.fst = .ok 0x1003000 := by
  obtain ⟨s₀, hs, hclimb⟩ := twoChunks_setup fun _ => 0
  have hb := twoChunks_admissible.manageable
  have hcalls := (cursor_only_cache hb hs).1 twoChunks_consistent
  have h₀ := setupPmm_tabled hb.few hs
  have hslot : s₀.slot 0 = ⟨0x1000000, 0, 4096⟩ := hclimb.slot_zero twoChunks_mappings
  have hone : s₀.slot 1 = ⟨0x3000000, 4097, 69633⟩ := by
    rw [Pmm.slot, hclimb.table, twoChunks_mappings]
    rfl
  have hsearch := searchMappings_next hclimb.ready (·.holdsIndex 5000)
    (by rw [hclimb.cursor]; exact Nat.zero_le _)
    (by rw [hclimb.cursor, hslot]; rfl) (by rw [hclimb.cursor, hone]; rfl)
  rw [hclimb.cursor, hone] at hsearch
  have hmoved : PmmCalls twoChunks s₀ { s₀ with lastUsedMapping := 1 } := by
    refine PmmCalls.start.call (c := .pageToPtr 5000) ?_
    rw [PmmCall.run, pageToPtr_found (by decide) hsearch]
    rfl
  have hfree := hcalls _ hmoved
  refine ⟨s₀, _, hs, hmoved, rfl, hfree, ?_⟩
  have hfirst := pageToPtr_here (s := { s₀ with lastUsedMapping := 0 }) (i := 3) h₀.reset.ready
    (by decide) (by change (s₀.slot 0).holdsIndex 3 = true; rw [hslot]; rfl)
  have hsame := hfree.1 3
  change _ = (pageToPtr { s₀ with lastUsedMapping := 0 } 3).map Prod.fst at hsame
  rw [hsame, hfirst]
  change Except.ok ((s₀.slot 0).ptrOf 3) = _
  rw [hslot]
  rfl

/-- With the map of `highKernel` index 163 is at 0x1a3000 right after `setup_pmm`, and at 0x103000
once a call has moved the cursor to the second window. -/
theorem highKernel_cursor : Admissible highKernel ∧
    ∃ p₀ s₀ s, setupPmm highKernel (fun _ => 0) = .ok (p₀, s₀) ∧ PmmCalls highKernel s₀ s ∧
      pageToPtr s₀ 163 = .ok (0x1a3000, s₀) ∧ pageToPtr s 163 = .ok (0x103000, s) := by
  refine ⟨highKernel_admissible, ?_⟩
  obtain ⟨s₀, hs, hclimb⟩ := highKernel_setup fun _ => 0
  have hb := highKernel_admissible.manageable
  have h₀ := setupPmm_tabled hb.few hs
  have hend : ∀ m ∈ highKernel.mappings, m.pageEndIndex ≤ maxPages + 1 := by
    rw [highKernel_mappings]
    decide
  obtain ⟨k, hk, hle, hslot⟩ := PmmCalls.onSlot (m := ⟨0x100000, 160, 524448⟩) h₀ hb hend
    (by rw [highKernel_mappings]; decide) (by decide) .start
  have hzero : s₀.slot s₀.lastUsedMapping = ⟨0x100000, 0, 4096⟩ := by
    rw [hclimb.cursor, hclimb.slot_zero highKernel_mappings]
  have hfirst := pageToPtr_here (i := 163) h₀.ready (by decide) (by rw [hzero]; rfl)
  have hsecond := pageToPtr_here (i := 163) (hk.tabled h₀).ready (by decide)
    (by change (s₀.slot k).holdsIndex 163 = true; rw [hslot]; rfl)
  change pageToPtr { s₀ with lastUsedMapping := k } 163 = .ok ((s₀.slot k).ptrOf 163, _) at hsecond
  rw [hzero] at hfirst
  rw [hslot] at hsecond
  exact ⟨_, s₀, _, hs, hk, hfirst, hsecond⟩

end AdaOS
