import Mathlib.Data.List.GetD
import AdaOS.Pmm

namespace AdaOS
set_option autoImplicit true

variable {s s' : Pmm}

/-- The mapping table a search may rely on: one slot a chunk, two zero slots after them, and a
cursor that stays on these slots. -/
structure Pmm.Ready (s : Pmm) : Prop where
  slots : s.pageMappings.length = s.desc.chunkCount
  room : s.desc.chunkCount + 1 < maxSegments
  cursor : s.lastUsedMapping ≤ s.desc.chunkCount + 1

def Pmm.slot (s : Pmm) (k : Nat) : PageMapping := s.pageMappings.getD k .zero

theorem Pmm.slot_mem (hit : PageMapping → Bool) (hz : hit .zero = false)
    (hk : hit (s.slot k) = true) : s.slot k ∈ s.pageMappings := by
  by_cases hlt : k < s.pageMappings.length
  · rw [Pmm.slot, List.getD_eq_getElem _ _ hlt]
    exact List.getElem_mem hlt
  · rw [Pmm.slot, List.getD_eq_default _ _ (Nat.le_of_not_lt hlt), hz] at hk
    cases hk

theorem Pmm.Ready.mem_slot (h : s.Ready) (hm : m ∈ s.pageMappings) :
    ∃ k, k ≤ s.desc.chunkCount + 1 ∧ s.slot k = m := by
  obtain ⟨k, hk, he⟩ := List.mem_iff_getElem.mp hm
  have hs := h.slots
  exact ⟨k, by omega, by rw [Pmm.slot, List.getD_eq_getElem _ _ hk, he]⟩

/-- What a finished search says: the slot it stopped at passes the test, and when there is none
no slot from `first` on does. -/
def SearchResult (s : Pmm) (hit : PageMapping → Bool) (first : Nat)
    (r : Option PageMapping × Nat) : Prop :=
  r.2 ≤ s.desc.chunkCount + 1 ∧ (∀ m, r.1 = some m → m = s.slot r.2 ∧ hit m = true) ∧
    (r.1 = none → ∀ k, first ≤ k → k ≤ s.desc.chunkCount + 1 → hit (s.slot k) = false)

theorem retry_hit (hc : cursor < maxSegments) (hh : hit (s.slot cursor) = true) :
    retry s.pageMappings s.desc.chunkCount hit (fuel + 1) cursor wrapped =
      .ok (some (s.slot cursor), cursor) := by
  rw [retry, if_pos hc]
  exact if_pos hh

theorem retry_next (hr : s.Ready) (hc : cursor ≤ s.desc.chunkCount)
    (hh : hit (s.slot cursor) = false) :
    retry s.pageMappings s.desc.chunkCount hit (fuel + 1) cursor wrapped =
      retry s.pageMappings s.desc.chunkCount hit fuel (cursor + 1) wrapped := by
  have hroom := hr.room
  have hh' : ¬hit (s.pageMappings.getD cursor .zero) = true := by
    rw [← Pmm.slot, hh]
    exact Bool.false_ne_true
  rw [retry, if_pos (by omega)]
  simp only [if_neg hh', if_pos hc]

theorem retry_last (hr : s.Ready) (hh : hit (s.slot (s.desc.chunkCount + 1)) = false) :
    retry s.pageMappings s.desc.chunkCount hit (fuel + 1) (s.desc.chunkCount + 1) wrapped =
      if wrapped then .ok (none, s.desc.chunkCount + 1)
      else retry s.pageMappings s.desc.chunkCount hit fuel 0 true := by
  have hh' : ¬hit (s.pageMappings.getD (s.desc.chunkCount + 1) .zero) = true := by
    rw [← Pmm.slot, hh]
    exact Bool.false_ne_true
  rw [retry, if_pos hr.room]
  simp only [if_neg hh', if_neg (Nat.not_succ_le_self _)]

theorem SearchResult.found (hk : k ≤ s.desc.chunkCount + 1) (hh : hit (s.slot k) = true) :
    SearchResult s hit first (some (s.slot k), k) := by
  refine ⟨hk, ?_, fun h => by cases h⟩
  intro m hm
  cases hm
  exact ⟨rfl, hh⟩

/-- A pass over the rest of the table stops at a slot that passes the test, or comes to the
end. -/
theorem retry_pass (hr : s.Ready) (hit : PageMapping → Bool) (n : Nat)
    (hn : first + n = s.desc.chunkCount + 1) (fuel : Nat) (wrapped : Bool) :
    (∃ k ≤ s.desc.chunkCount + 1, hit (s.slot k) = true ∧
      retry s.pageMappings s.desc.chunkCount hit (fuel + n + 1) first wrapped =
        .ok (some (s.slot k), k)) ∨
    (∀ k, first ≤ k → k ≤ s.desc.chunkCount + 1 → hit (s.slot k) = false) ∧
      retry s.pageMappings s.desc.chunkCount hit (fuel + n + 1) first wrapped =
        if wrapped then .ok (none, s.desc.chunkCount + 1)
        else retry s.pageMappings s.desc.chunkCount hit fuel 0 true := by
  have hroom := hr.room
  induction n generalizing first with
  | zero =>
    obtain rfl : first = s.desc.chunkCount + 1 := hn
    cases hh : hit (s.slot (s.desc.chunkCount + 1)) with
    | true => exact .inl ⟨_, Nat.le_refl _, hh, retry_hit hroom hh⟩
    | false =>
      refine .inr ⟨?_, retry_last hr hh⟩
      intro k hk hk'
      rw [Nat.le_antisymm hk' hk]
      exact hh
  | succ n ih =>
    cases hh : hit (s.slot first) with
    | true => exact .inl ⟨first, by omega, hh, retry_hit (by omega) hh⟩
    | false =>
      have hnext : retry s.pageMappings s.desc.chunkCount hit (fuel + n + 1 + 1) first wrapped =
          retry s.pageMappings s.desc.chunkCount hit (fuel + n + 1) (first + 1) wrapped :=
        retry_next hr (by omega) hh
      obtain ⟨k, hk, hhit, he⟩ | ⟨hmiss, he⟩ := ih (show first + 1 + n = _ by omega)
      · exact .inl ⟨k, hk, hhit, hnext.trans he⟩
      · refine .inr ⟨?_, hnext.trans he⟩
        intro k hk hk'
        rcases Nat.eq_or_lt_of_le hk with rfl | hlt
        · exact hh
        · exact hmiss k hlt hk'

theorem retry_wrapped (hr : s.Ready) (hit : PageMapping → Bool) (n : Nat)
    (hn : first + n = s.desc.chunkCount + 1)
    (hf : n < fuel) :
    ∃ r, retry s.pageMappings s.desc.chunkCount hit fuel first true = .ok r ∧
      SearchResult s hit first r := by
  obtain ⟨f, rfl⟩ : ∃ f, fuel = f + n + 1 := ⟨fuel - n - 1, by omega⟩
  obtain ⟨k, hk, hh, he⟩ | ⟨hmiss, he⟩ := retry_pass hr hit n hn f true
  · exact ⟨_, he, .found hk hh⟩
  · exact ⟨_, he, Nat.le_refl _, fun m h => (by cases h), fun _ => hmiss⟩

theorem retry_first_pass (hr : s.Ready) (n : Nat) (hn : first + n = s.desc.chunkCount + 1)
    (hf : n + s.desc.chunkCount + 2 < fuel) :
    ∃ r, retry s.pageMappings s.desc.chunkCount hit fuel first false = .ok r ∧
      SearchResult s hit 0 r := by
  obtain ⟨f, rfl⟩ : ∃ f, fuel = f + n + 1 := ⟨fuel - n - 1, by omega⟩
  obtain ⟨k, hk, hh, he⟩ | ⟨_, he⟩ := retry_pass hr hit n hn f false
  · exact ⟨_, he, .found hk hh⟩
  · obtain ⟨r, hr', hres⟩ := retry_wrapped hr hit (s.desc.chunkCount + 1) (Nat.zero_add _)
      (show s.desc.chunkCount + 1 < f by omega)
    exact ⟨r, he.trans hr', hres⟩

theorem searchMappings_ok (hr : s.Ready) (hit : PageMapping → Bool) :
    ∃ r, searchMappings s hit = .ok r ∧ SearchResult s hit 0 r := by
  have hc := hr.cursor
  exact retry_first_pass hr (s.desc.chunkCount + 1 - s.lastUsedMapping) (by omega) (by omega)

theorem searchMappings_cases (hr : s.Ready) (hit : PageMapping → Bool) (hz : hit .zero = false) :
    (∃ m ∈ s.pageMappings, hit m = true ∧ ∃ c ≤ s.desc.chunkCount + 1,
      searchMappings s hit = .ok (some m, c)) ∨
    (∀ m ∈ s.pageMappings, hit m = false) ∧ ∃ c ≤ s.desc.chunkCount + 1,
      searchMappings s hit = .ok (none, c) := by
  obtain ⟨⟨r, c⟩, he, hle, hsome, hnone⟩ := searchMappings_ok hr hit
  cases r with
  | some m =>
    obtain ⟨hs, hm⟩ := hsome m rfl
    have hmem := Pmm.slot_mem hit hz (hs ▸ hm)
    exact .inl ⟨m, hs ▸ hmem, hm, c, hle, he⟩
  | none =>
    refine .inr ⟨fun m hm => ?_, c, hle, he⟩
    obtain ⟨k, hk, rfl⟩ := hr.mem_slot hm
    exact hnone rfl k (Nat.zero_le _) hk

theorem searchMappings_here (hr : s.Ready) (hit : PageMapping → Bool)
    (hh : hit (s.slot s.lastUsedMapping) = true) :
    searchMappings s hit = .ok (some (s.slot s.lastUsedMapping), s.lastUsedMapping) := by
  have hroom := hr.room
  have hcursor := hr.cursor
  exact retry_hit (by omega) hh

theorem searchMappings_next (hr : s.Ready) (hit : PageMapping → Bool)
    (hc : s.lastUsedMapping ≤ s.desc.chunkCount)
    (hm : hit (s.slot s.lastUsedMapping) = false)
    (hh : hit (s.slot (s.lastUsedMapping + 1)) = true) :
    searchMappings s hit =
      .ok (some (s.slot (s.lastUsedMapping + 1)), s.lastUsedMapping + 1) := by
  have hroom := hr.room
  exact (retry_next hr hc hm).trans (retry_hit (by omega) hh)

theorem holdsIndex_zero (i : Nat) : PageMapping.zero.holdsIndex i = false := by
  simp [PageMapping.holdsIndex, PageMapping.zero]

theorem holdsPtr_zero (p : Nat) : PageMapping.zero.holdsPtr p = false := by
  simp [PageMapping.holdsPtr, PageMapping.zero, PageMapping.segmentSize, u64]

theorem pageToPtr_cases (hr : s.Ready) (hi : i ≤ maxPages) :
    ∃ p, ∃ c ≤ s.desc.chunkCount + 1,
      pageToPtr s i = .ok (p, { s with lastUsedMapping := c }) ∧
      ((∃ m ∈ s.pageMappings, m.holdsIndex i = true ∧ p = m.ptrOf i) ∨
        (∀ m ∈ s.pageMappings, m.holdsIndex i = false) ∧ p = 0) := by
  rw [pageToPtr, if_neg (Nat.not_lt_of_le hi)]
  rcases searchMappings_cases hr (·.holdsIndex i) (holdsIndex_zero i) with
    ⟨m, hm, hh, c, hc, he⟩ | ⟨hno, c, hc, he⟩
  · rw [he]
    exact ⟨_, c, hc, rfl, .inl ⟨m, hm, hh, rfl⟩⟩
  · rw [he]
    exact ⟨_, c, hc, rfl, .inr ⟨hno, rfl⟩⟩

theorem pageToPtr_found (hi : i ≤ maxPages)
    (hs : searchMappings s (·.holdsIndex i) = .ok (some m, c)) :
    pageToPtr s i = .ok (m.ptrOf i, { s with lastUsedMapping := c }) := by
  rw [pageToPtr, if_neg (Nat.not_lt_of_le hi), hs]
  rfl

theorem pageToPtr_big (hi : maxPages < i) : pageToPtr s i = .ok (0, s) := if_pos hi

theorem ptrToPage_cases (hr : s.Ready) (hp : p ≠ 0) (ha : p % pageSize = 0) :
    ∃ i, ∃ c ≤ s.desc.chunkCount + 1,
      ptrToPage s p = .ok (i, { s with lastUsedMapping := c }) ∧
      ((∃ m ∈ s.pageMappings, m.holdsPtr p = true ∧ i = m.indexOf p) ∨
        (∀ m ∈ s.pageMappings, m.holdsPtr p = false) ∧ i = noPage) := by
  rw [ptrToPage, if_neg hp, if_neg (not_not_intro ha)]
  rcases searchMappings_cases hr (·.holdsPtr p) (holdsPtr_zero p) with
    ⟨m, hm, hh, c, hc, he⟩ | ⟨hno, c, hc, he⟩
  · rw [he]
    exact ⟨_, c, hc, rfl, .inl ⟨m, hm, hh, rfl⟩⟩
  · rw [he]
    exact ⟨_, c, hc, rfl, .inr ⟨hno, rfl⟩⟩

theorem ptrToPage_found (hp : p ≠ 0) (ha : p % pageSize = 0)
    (hs : searchMappings s (·.holdsPtr p) = .ok (some m, c)) :
    ptrToPage s p = .ok (m.indexOf p, { s with lastUsedMapping := c }) := by
  rw [ptrToPage, if_neg hp, if_neg (not_not_intro ha), hs]
  rfl

theorem ptrToPage_bad (hp : p = 0 ∨ p % pageSize ≠ 0) : ptrToPage s p = .ok (noPage, s) := by
  rcases hp with rfl | hp
  · exact if_pos rfl
  · rw [ptrToPage, if_pos hp]
    split <;> rfl

theorem pageToPtr_moves (hr : s.Ready) (h : pageToPtr s i = .ok (p, s')) :
    ∃ c ≤ s.desc.chunkCount + 1, s' = { s with lastUsedMapping := c } := by
  rcases Nat.lt_or_ge maxPages i with hi | hi
  · rw [pageToPtr_big hi] at h
    cases h
    exact ⟨_, hr.cursor, rfl⟩
  · obtain ⟨_, c, hc, he, _⟩ := pageToPtr_cases hr hi
    rw [he] at h
    cases h
    exact ⟨c, hc, rfl⟩

theorem ptrToPage_moves (hr : s.Ready) (h : ptrToPage s p = .ok (i, s')) :
    ∃ c ≤ s.desc.chunkCount + 1, s' = { s with lastUsedMapping := c } := by
  by_cases hp : p = 0 ∨ p % pageSize ≠ 0
  · rw [ptrToPage_bad hp] at h
    cases h
    exact ⟨_, hr.cursor, rfl⟩
  · rw [not_or, not_not] at hp
    obtain ⟨_, c, hc, he, _⟩ := ptrToPage_cases hr hp.1 hp.2
    rw [he] at h
    cases h
    exact ⟨c, hc, rfl⟩

theorem pageToPtr_cursor (h : pageToPtr s i = .ok (p, s')) :
    ∃ c, s' = { s with lastUsedMapping := c } := by
  rw [pageToPtr] at h
  split at h
  · cases h
    exact ⟨_, rfl⟩
  · obtain ⟨⟨r, c⟩, _, h⟩ := bind_ok h
    cases r <;> cases h <;> exact ⟨c, rfl⟩

theorem ptrToPage_cursor (h : ptrToPage s p = .ok (i, s')) :
    ∃ c, s' = { s with lastUsedMapping := c } := by
  rw [ptrToPage] at h
  split at h
  · cases h
    exact ⟨_, rfl⟩
  · split at h
    · cases h
      exact ⟨_, rfl⟩
    · obtain ⟨⟨r, c⟩, _, h⟩ := bind_ok h
      cases r <;> cases h <;> exact ⟨c, rfl⟩

end AdaOS
