import AdaOS.CursorCache
import AdaOS.Descriptor

namespace AdaOS
set_option autoImplicit true

/-- Any sequence of translations. -/
inductive SearchRun (s₀ : Pmm) : Pmm → Prop where
  | start : SearchRun s₀ s₀
  | pageToPtr : SearchRun s₀ s → pageToPtr s i = .ok (p, s') → SearchRun s₀ s'
  | ptrToPage : SearchRun s₀ s → ptrToPage s p = .ok (i, s') → SearchRun s₀ s'

/-- No access to the fixed tables is outside them: not when the descriptor is made, which counts
every chunk, not when the mappings are, and not when they are searched after that. -/
def TablesHold (memmap : List MemmapEntry) : Prop :=
  ∀ stale, ∃ d freeChunks, getMemoryDescriptorIn stale memmap = .ok (d, freeChunks) ∧
    d.chunkCount = (foundChunks memmap).length ∧
    ∃ s₀, generatePageMapping { Pmm.initial (fun _ => 0) with desc := d } = .ok s₀ ∧
      ∀ s, SearchRun s₀ s →
        (∀ i, pageToPtr s i ≠ .error .outOfBounds) ∧ ∀ p, ptrToPage s p ≠ .error .outOfBounds

variable {s s' s₀ : Pmm} {memmap : List MemmapEntry}

theorem SearchRun.ready (hr : SearchRun s₀ s) (h₀ : s₀.Ready) : s.Ready := by
  induction hr with
  | start => exact h₀
  | pageToPtr _ ha ih =>
    obtain ⟨c, hc, rfl⟩ := pageToPtr_moves ih ha
    exact ⟨ih.slots, ih.room, hc⟩
  | ptrToPage _ ha ih =>
    obtain ⟨c, hc, rfl⟩ := ptrToPage_moves ih ha
    exact ⟨ih.slots, ih.room, hc⟩

theorem Pmm.Ready.pageToPtr_inBounds (h : s.Ready) (i : Nat) :
    pageToPtr s i ≠ .error .outOfBounds := by
  rcases Nat.lt_or_ge maxPages i with hi | hi
  · rw [pageToPtr_big hi]
    exact fun h => nomatch h
  · obtain ⟨_, _, _, he, _⟩ := pageToPtr_cases h hi
    rw [he]
    exact fun h => nomatch h

theorem Pmm.Ready.ptrToPage_inBounds (h : s.Ready) (p : Nat) :
    ptrToPage s p ≠ .error .outOfBounds := by
  by_cases hp : p = 0 ∨ p % pageSize ≠ 0
  · rw [ptrToPage_bad hp]
    exact fun h => nomatch h
  · rw [not_or, not_not] at hp
    obtain ⟨_, _, _, he, _⟩ := ptrToPage_cases h hp.1 hp.2
    rw [he]
    exact fun h => nomatch h

/-- The state `generate_page_mapping` leaves when the chunks fit the table. -/
def mappedState (d : MemoryDescriptor) : Pmm :=
  { Pmm.initial (fun _ => 0) with
    desc := d
    pageMappings := pageMappingsOf 0 d.chunkPtr
    freePages := BitVec.ofNat 64 (d.chunkPtr.foldl pagesAfter 0) }

theorem generatePageMapping_eq (hd : d.chunkCount = d.chunkPtr.length) :
    generatePageMapping { Pmm.initial (fun _ => 0) with desc := d } =
      if d.chunkPtr.length ≤ maxSegments then .ok (mappedState d) else .error .outOfBounds := by
  have htake : d.chunkPtr.take d.chunkCount = d.chunkPtr := by rw [hd, List.take_length]
  rw [generatePageMapping]
  simp only [htake, mappedState]

theorem mappedState_ready (hd : d.chunkCount = d.chunkPtr.length) (h : d.chunkPtr.length ≤ 30) :
    (mappedState d).Ready where
  slots := pageMappingsOf_length.trans hd.symm
  room := by
    change d.chunkCount + 1 < maxSegments
    rw [hd, maxSegments]
    omega
  cursor := Nat.zero_le _

theorem retry_overrun {hit : PageMapping → Bool} (hno : ∀ m ∈ ms, hit m = false)
    (hz : hit .zero = false) (hn : maxSegments ≤ n + 1) (k : Nat)
    (hk : cursor + k = maxSegments) (hf : k < fuel) :
    retry ms n hit fuel cursor wrapped = .error .outOfBounds := by
  induction k generalizing cursor fuel with
  | zero =>
    obtain ⟨fuel, rfl⟩ : ∃ f, fuel = f + 1 := ⟨fuel - 1, by omega⟩
    exact if_neg (by omega)
  | succ k ih =>
    obtain ⟨fuel, rfl⟩ : ∃ f, fuel = f + 1 := ⟨fuel - 1, by omega⟩
    have hmiss : ¬hit (ms.getD cursor .zero) = true := by
      by_cases hlt : cursor < ms.length
      · rw [List.getD_eq_getElem _ _ hlt, hno _ (List.getElem_mem hlt)]
        exact Bool.false_ne_true
      · rw [List.getD_eq_default _ _ (Nat.le_of_not_lt hlt), hz]
        exact Bool.false_ne_true
    rw [retry, if_pos (by omega)]
    simp only [if_neg hmiss, if_pos (show cursor ≤ n by omega)]
    exact ih (by omega) (by omega)

theorem mappedState_overrun (hd : d.chunkCount = d.chunkPtr.length) (h : 31 ≤ d.chunkPtr.length) :
    pageToPtr (mappedState d) 0 = .error .outOfBounds := by
  have hno : ∀ m : PageMapping, m.holdsIndex 0 = false := by
    intro m
    simp [PageMapping.holdsIndex]
  have hs : searchMappings (mappedState d) (·.holdsIndex 0) = .error .outOfBounds := by
    refine retry_overrun (fun m _ => hno m) (hno _) ?_ maxSegments (Nat.zero_add _) ?_
    · change maxSegments ≤ d.chunkCount + 1
      rw [hd, maxSegments]
      omega
    · change maxSegments < 2 * (d.chunkCount + 2)
      rw [hd, maxSegments]
      omega
  rw [pageToPtr, if_neg (Nat.not_lt_zero _), hs]
  rfl

theorem getMemoryDescriptor_counts (h : getMemoryDescriptor memmap = .ok d) :
    d.chunkCount = (foundChunks memmap).length ∧
      d.chunkPtr.length = (foundChunks memmap).length := by
  have hfit : (foundChunks memmap).length ≤ maxChunks := by
    by_contra hbig
    rw [getMemoryDescriptor_full (Nat.lt_of_not_le hbig)] at h
    cases h
  rw [getMemoryDescriptor_eq hfit] at h
  cases h
  exact ⟨rfl, List.length_reverse⟩

theorem TablesHold.of_count (h : (foundChunks memmap).length ≤ 30) : TablesHold memmap := by
  intro stale
  rcases getMemoryDescriptorIn_cases stale memmap with ⟨d, freeChunks, he, hd, _⟩ | ⟨_, hno⟩
  · obtain ⟨hcount, hlen⟩ := getMemoryDescriptor_counts hd
    have heq : d.chunkCount = d.chunkPtr.length := hcount.trans hlen.symm
    refine ⟨d, freeChunks, he, hcount, mappedState d, ?_, fun s hr => ?_⟩
    · rw [generatePageMapping_eq heq, if_pos]
      rw [hlen, maxSegments]
      omega
    · have hready := hr.ready (mappedState_ready heq (hlen ▸ h))
      exact ⟨hready.pageToPtr_inBounds, hready.ptrToPage_inBounds⟩
  · rw [getMemoryDescriptor_eq (Nat.le_trans h (by decide))] at hno
    cases hno

theorem TablesHold.count_le (h : TablesHold memmap) : (foundChunks memmap).length ≤ 30 := by
  obtain ⟨d, freeChunks, he, _, s₀, hs, hruns⟩ := h (Vector.replicate maxChunks ⟨0, 0⟩)
  rcases getMemoryDescriptorIn_cases (Vector.replicate maxChunks ⟨0, 0⟩) memmap with
    ⟨d', _, he', hd, _⟩ | ⟨hno, _⟩
  · rw [he] at he'
    cases he'
    obtain ⟨hcount, hlen⟩ := getMemoryDescriptor_counts hd
    have heq : d.chunkCount = d.chunkPtr.length := hcount.trans hlen.symm
    by_contra hgt
    rw [generatePageMapping_eq heq] at hs
    split at hs
    · cases hs
      exact (hruns _ .start).1 0 (mappedState_overrun heq (by omega))
    · cases hs
  · rw [he] at hno
    cases hno

/-- The three capacities hold for exactly the maps of at most 30 chunks. -/
theorem tablesHold_iff : TablesHold memmap ↔ (foundChunks memmap).length ≤ 30 :=
  ⟨TablesHold.count_le, TablesHold.of_count⟩

/-- 31 usable pages with a page between each and the next. -/
def scattered : List MemmapEntry :=
  (List.range 31).map fun k => ⟨0x100000 + k * 0x2000, 0x1000, .usable⟩

theorem scattered_overrun : ¬TablesHold scattered := by
  intro h
  have hle := h.count_le
  have hcount : (foundChunks scattered).length = 31 := by decide
  omega

end AdaOS
