import AdaOS.PmmSafety

namespace AdaOS
set_option autoImplicit true

variable {b : BootInfo} {s s' s₀ : Pmm} {live : List (Nat × Nat)}

/-- `get_free_page` picks an index that some window holds. -/
def NextHeld (b : BootInfo) (s : Pmm) : Prop :=
  ∀ i s₁, getFreePage b s = .ok (i, s₁) → ∃ m ∈ s.pageMappings, m.holdsIndex i = true

/-- The bitmap and the counters of `s` differ from those of `s₀` by the live pages. -/
structure Balanced (s₀ s : Pmm) (live : List (Nat × Nat)) : Prop where
  bits : ∀ k, s.pageBitmap k = (s₀.pageBitmap k || decide (k ∈ live.map Prod.snd))
  fresh : ∀ k ∈ live.map Prod.snd, s₀.pageBitmap k = false
  free : s.freePages + BitVec.ofNat 64 live.length = s₀.freePages
  used : s.usedPages = s₀.usedPages + BitVec.ofNat 64 live.length

theorem Balanced.taken (h : Balanced s₀ s live) (hi : s.pageBitmap i = false) :
    Balanced s₀ (s.taken i c p) ((p, i) :: live) := by
  have hclear := hi
  rw [h.bits, Bool.or_eq_false_iff] at hclear
  refine ⟨fun k => ?_, ?_, ?_, ?_⟩
  · simp only [Pmm.taken, Function.update_apply, List.map_cons, List.mem_cons]
    by_cases hk : k = i
    · simp [hk]
    · simp [hk, h.bits]
  · simp only [List.map_cons, List.forall_mem_cons]
    exact ⟨hclear.1, h.fresh⟩
  · simp only [Pmm.taken, List.length_cons, BitVec.ofNat_add, ← h.free]
    bv_omega
  · simp only [Pmm.taken, List.length_cons, BitVec.ofNat_add, h.used]
    bv_omega

theorem Balanced.released (hb : PmmOwned b s live) (h : Balanced s₀ s live)
    {e : Nat × Nat} (he : e ∈ live) :
    Balanced s₀ (s.released e.2 c) (live.erase e) := by
  have hlen : live.length = (live.erase e).length + 1 := by
    rw [List.length_erase_of_mem he]
    have hpos := List.length_pos_of_mem he
    omega
  refine ⟨fun k => ?_, fun k hk => ?_, ?_, ?_⟩
  · simp only [Pmm.released, Function.update_apply, hb.snd_mem_erase he]
    by_cases hk : k = e.2
    · simp [hk, h.fresh e.2 (List.mem_map_of_mem he)]
    · simp [hk, h.bits]
  · exact h.fresh k ((hb.snd_mem_erase he).1 hk).1
  · have hf := h.free
    rw [hlen, BitVec.ofNat_add] at hf
    simp only [Pmm.released, ← hf]
    bv_omega
  · have hu := h.used
    rw [hlen, BitVec.ofNat_add] at hu
    simp only [Pmm.released, hu]
    bv_omega

theorem Balanced.of_eq (h : Balanced s₀ s live) (hs : s'.pageBitmap = s.pageBitmap ∧
    s'.freePages = s.freePages ∧ s'.usedPages = s.usedPages) : Balanced s₀ s' live := by
  obtain ⟨hbit, hfree, hused⟩ := hs
  exact ⟨hbit ▸ h.bits, h.fresh, hfree ▸ h.free, hused ▸ h.used⟩

theorem PmmRun.balanced (hb : Admissible b) (hw : WindowsAgree b) (h₀ : PmmOwned b s₀ [])
    (hr : PmmRun b (NextHeld b) s₀ [] s live) : Balanced s₀ s live := by
  induction hr with
  | start => exact ⟨fun k => by simp, (fun _ hk => nomatch hk), by simp, by simp⟩
  | @alloc s live p s' i hr _ ha hp hi ih =>
    have ho := hr.owned hb hw h₀
    obtain ⟨j, _, hj, ⟨_, rfl, _⟩ | ⟨c, _, rfl, _⟩⟩ := ppAlloc_cases ho.inv.ready ha
    · exact (hp rfl).elim
    · rw [hi.unique (j := j) ⟨hj.2.2, rfl⟩]
      exact ih.taken hj.2.2
  | @refused s live s' hr hnext ha ih =>
    have ho := hr.owned hb hw h₀
    obtain ⟨j, hg, hj, ⟨_, _, rfl⟩ | ⟨c, _, rfl, hl⟩⟩ := ppAlloc_cases ho.inv.ready ha
    · exact ih.of_eq ⟨rfl, rfl, rfl⟩
    · obtain ⟨m, hm, hh⟩ := hnext j _ hg
      rcases hl with ⟨m', hm', hh', hz⟩ | ⟨hno, _⟩
      · have hlow := (hb.mapping_regular m' (ho.inv.table ▸ hm')).low_lt_ptrOf hh'
        omega
      · rw [hno m hm] at hh
        cases hh
  | @free s live e s' hr he hf ih =>
    have ho := hr.owned hb hw h₀
    obtain ⟨c, _, hs⟩ := ho.ppFree_eq hb hw he
    rw [hf] at hs
    cases hs
    exact ih.released ho he
  | pageToPtr hr ha ih => exact ih.of_eq (pageToPtr_bitmap (hr.owned hb hw h₀).inv.ready ha)
  | ptrToPage hr ha ih => exact ih.of_eq (ptrToPage_bitmap (hr.owned hb hw h₀).inv.ready ha)

/-- With agreeing windows `pp_free` clears exactly the bit the matching `pp_alloc` set. When
moreover every index drawn is held by a window, a run that has released everything is back at
the bitmap and the counters `setup_pmm` left. -/
theorem ppFree_undoes_ppAlloc (hb : Admissible b) (hw : WindowsAgree b)
    (hs : setupPmm b ram = .ok (p₀, s₀)) :
    (∀ s live, PmmRun b (fun _ => True) s₀ [] s live → ∀ e ∈ live,
      s.pageBitmap e.2 = true ∧ ∃ s', ppFree s e.1 = .ok s' ∧
        s'.pageBitmap = Function.update s.pageBitmap e.2 false) ∧
    (∀ s, PmmRun b (NextHeld b) s₀ [] s [] → s.pageBitmap = s₀.pageBitmap ∧
      s.freePages = s₀.freePages ∧ s.usedPages = s₀.usedPages) := by
  have h₀ := setupPmm_owned_nil hb hs
  refine ⟨fun s live hr e he => ?_, fun s hr => ?_⟩
  · have ho := hr.owned hb hw h₀
    obtain ⟨c, _, hf⟩ := ho.ppFree_eq hb hw he
    exact ⟨ho.marked e he, _, hf, rfl⟩
  · obtain ⟨hbits, _, hfree, hused⟩ := hr.balanced hb hw h₀
    refine ⟨funext fun k => ?_, ?_, ?_⟩
    · simpa using hbits k
    · simpa using hfree
    · simpa using hused

/-- The first page of `twoChunks` taken and given back. -/
theorem ppFree_undoes_ppAlloc_twoChunks : ∃ s₀ s s',
    setupPmm twoChunks (fun _ => 0) = .ok (0x1002000, s₀) ∧
      PmmRun twoChunks (NextHeld twoChunks) s₀ [] s [(0x1003000, 3)] ∧
      s.pageBitmap 3 = true ∧ ppFree s 0x1003000 = .ok s' ∧
      s'.pageBitmap = Function.update s.pageBitmap 3 false ∧
      s'.pageBitmap = s₀.pageBitmap ∧ s'.freePages = s₀.freePages ∧
      s'.usedPages = s₀.usedPages := by
  obtain ⟨s₀, hs, hclimb⟩ := twoChunks_setup fun _ => 0
  obtain ⟨hclears, hback⟩ := ppFree_undoes_ppAlloc twoChunks_admissible twoChunks_agree hs
  have halloc := hclimb.ppAlloc_eq (by decide) (by decide) (by decide)
    (hclimb.search_zero twoChunks_mappings rfl)
  have hbit := hclimb.setBit (c := 0) (p := 0x1003000) (by decide)
  have hnext : NextHeld twoChunks s₀ := by
    intro i s₁ hg
    rw [hclimb.getFreePage_eq (by decide) (by decide)] at hg
    cases hg
    rw [hclimb.table, twoChunks_mappings]
    exact ⟨_, List.mem_cons_self .., rfl⟩
  have hstart : PmmRun twoChunks (fun _ => True) s₀ [] s₀ [] := .start
  have hheld : PmmRun twoChunks (NextHeld twoChunks) s₀ [] s₀ [] := .start
  have hr := hheld.alloc hnext halloc (by decide) hbit
  obtain ⟨hset, s', hfree, hclear⟩ := hclears _ _
    (hstart.alloc trivial halloc (by decide) hbit) _ (List.mem_singleton.2 rfl)
  have hfreed := hr.free (List.mem_singleton.2 rfl) hfree
  rw [List.erase_cons_head] at hfreed
  exact ⟨s₀, _, s', hs, hr, hset, hfree, hclear, hback s' hfreed⟩

/-- With the map of `highKernel` a search that starts at the second window turns the page of
index 3 into index 163, and bit 3 stays set. -/
theorem highKernel_leak : Admissible highKernel ∧
    ∃ p₀ s₀ s live, setupPmm highKernel (fun _ => 0) = .ok (p₀, s₀) ∧
      PmmRun highKernel (fun _ => True) s₀ [] s live ∧
      ∃ e ∈ live, ∃ s', ppFree s e.1 = .ok s' ∧ s.pageBitmap e.2 = true ∧
        s'.pageBitmap e.2 = true := by
  refine ⟨highKernel_admissible, ?_⟩
  obtain ⟨s₀, hs, hclimb⟩ := highKernel_setup fun _ => 0
  have halloc := hclimb.ppAlloc_eq (by decide) (by decide) (by decide)
    (hclimb.search_zero highKernel_mappings rfl)
  have hnext := hclimb.next (p := 0x103000) (by decide) (by decide) (by decide)
  have hone : (s₀.taken 3 0 0x103000).slot 1 = ⟨0x100000, 160, 524448⟩ := by
    rw [Pmm.slot, hnext.table, highKernel_mappings]
    rfl
  have hsearch := searchMappings_next hnext.ready (·.holdsIndex 5000) (Nat.zero_le _)
    (by rw [hnext.cursor, hnext.slot_zero highKernel_mappings]; rfl)
    (by rw [hnext.cursor, hone]; rfl)
  rw [hnext.cursor, hone] at hsearch
  obtain ⟨s₂, hs₂⟩ : ∃ s₂, s₂ = { s₀.taken 3 0 0x103000 with lastUsedMapping := 1 } := ⟨_, rfl⟩
  have hmoved : pageToPtr (s₀.taken 3 0 0x103000) 5000 = .ok (_, s₂) :=
    hs₂ ▸ pageToPtr_found (by decide) hsearch
  have hstart : PmmRun highKernel (fun _ => True) s₀ [] s₀ [] := .start
  have hr := (hstart.alloc trivial halloc (by decide) (hclimb.setBit (by decide))).pageToPtr hmoved
  have hready : s₂.Ready := by
    rw [hs₂]
    exact ⟨hnext.ready.slots, hnext.ready.room, Nat.le_add_left _ _⟩
  have hslot : s₂.slot s₂.lastUsedMapping = ⟨0x100000, 160, 524448⟩ := by rw [hs₂]; exact hone
  have hback := searchMappings_here hready (·.holdsPtr 0x103000) (by rw [hslot]; rfl)
  rw [hslot] at hback
  have hclear : s₂.pageBitmap 163 = false := by
    rw [hs₂]
    exact hnext.clear 163 (by decide) (by decide)
  have hfree : ppFree s₂ 0x103000 = .ok s₂ := by
    rw [ppFree, ptrToPage_found (by decide) (by decide) hback]
    change ppFreeIndex s₂ 163 = _
    rw [ppFreeIndex, if_neg (by decide), pageFree_eq (by decide), hclear]
    rfl
  have hset : s₂.pageBitmap 3 = true := by
    rw [hs₂]
    change Function.update s₀.pageBitmap 3 true 3 = true
    rw [Function.update_self]
  exact ⟨_, s₀, s₂, _, hs, hr, _, List.mem_cons_self .., s₂, hfree, hset, hset⟩

end AdaOS
