import AdaOS.PmmClimb

namespace AdaOS
set_option autoImplicit true

variable {b : BootInfo} {e : MemmapEntry} {s s' s₀ : Pmm} {live live₀ : List (Nat × Nat)}
  {admits : Pmm → Prop} {m : PageMapping}

def Unreserved (b : BootInfo) (i : Nat) : Prop := 1 ≤ i ∧ i < maxPages ∧ ¬Reserved b i

/-- Windows that overlap give each page they share the same index, at least where an unreserved
index reaches the page. -/
def WindowsAgree (b : BootInfo) : Prop :=
  ∀ i j, Unreserved b i → Clash b i j → i = j

theorem WindowsAgree.drawable (hw : WindowsAgree b) (h : Drawable b i) : Unreserved b i := by
  induction h with
  | unreserved h₁ h₂ h₃ => exact ⟨h₁, h₂, h₃⟩
  | released hd hcl _ _ ih => exact hw _ _ ih hcl ▸ ih

/-- With agreeing windows each live pointer owns a set bit of its own. -/
structure PmmOwned (b : BootInfo) (s : Pmm) (live : List (Nat × Nat)) : Prop where
  inv : PmmInv b s live
  marked : ∀ e ∈ live, s.pageBitmap e.2 = true
  nodup : (live.map Prod.snd).Nodup

theorem PmmOwned.alloc (h : PmmOwned b s live) (ha : ppAlloc b s = .ok (p, s')) (hp : p ≠ 0)
    (hi : SetBit s s' i) : PmmOwned b s' ((p, i) :: live) := by
  obtain ⟨j, _, hj, _, _, hinv⟩ := h.inv.alloc ha hp
  obtain rfl := hi.unique hj
  have hfresh : i ∉ live.map Prod.snd := by
    intro hm
    obtain ⟨e, he, rfl⟩ := List.mem_map.1 hm
    have hclear := hi.1
    rw [h.marked e he] at hclear
    cases hclear
  refine ⟨hinv, List.forall_mem_cons.2 ⟨?_, fun e he => ?_⟩, List.nodup_cons.2 ⟨hfresh, h.nodup⟩⟩
  · rw [hi.2, Function.update_self]
  · rw [hi.2, Function.update_apply]
    split
    · rfl
    · exact h.marked e he

theorem PmmOwned.refused (h : PmmOwned b s live) (ha : ppAlloc b s = .ok (0, s')) :
    PmmOwned b s' live := by
  refine ⟨h.inv.refused ha, fun e he => ?_, h.nodup⟩
  have hm := h.marked e he
  obtain ⟨i, _, _, ⟨_, _, rfl⟩ | ⟨c, _, rfl, _⟩⟩ := ppAlloc_cases h.inv.ready ha
  · exact hm
  · simp only [Pmm.taken, Function.update_apply]
    split
    · rfl
    · exact hm

/-- The state after `pp_free` cleared bit `i` with the cursor left at `c`. -/
def Pmm.released (s : Pmm) (i c : Nat) : Pmm :=
  { s with
    pageBitmap := Function.update s.pageBitmap i false
    freePages := s.freePages + 1
    usedPages := s.usedPages - 1
    lastUsedMapping := c }

theorem PmmOwned.ppFree_eq (hb : Admissible b) (hw : WindowsAgree b) (h : PmmOwned b s live)
    {e : Nat × Nat} (he : e ∈ live) :
    ∃ c ≤ s.desc.chunkCount + 1, ppFree s e.1 = .ok (s.released e.2 c) := by
  obtain ⟨j, c, hc, hcl, _, hp⟩ := h.inv.live_ptrToPage hb (p := e.1) (i := e.2) he
  have hu := hw.drawable (h.inv.live e he).1
  obtain rfl := hw _ _ hu hcl
  refine ⟨c, hc, ?_⟩
  rw [ppFree, hp]
  exact ppFreeIndex_clear (s := { s with lastUsedMapping := c }) hu.2.1 (h.marked e he)

theorem PmmOwned.snd_mem_erase (h : PmmOwned b s live) {e : Nat × Nat} (he : e ∈ live) :
    k ∈ (live.erase e).map Prod.snd ↔ k ∈ live.map Prod.snd ∧ k ≠ e.2 := by
  have hn := h.nodup
  have hperm : live.Perm (e :: live.erase e) := List.perm_cons_erase he
  rw [(hperm.map Prod.snd).nodup_iff, List.map_cons, List.nodup_cons] at hn
  rw [(hperm.map Prod.snd).mem_iff, List.map_cons, List.mem_cons]
  constructor
  · intro hk
    refine ⟨.inr hk, ?_⟩
    rintro rfl
    exact hn.1 hk
  · rintro ⟨rfl | hk, hne⟩
    · exact (hne rfl).elim
    · exact hk

theorem PmmOwned.free (hb : Admissible b) (hw : WindowsAgree b) (h : PmmOwned b s live)
    {e : Nat × Nat} (he : e ∈ live) (hf : ppFree s e.1 = .ok s') :
    PmmOwned b s' (live.erase e) := by
  refine ⟨h.inv.free hb he hf, fun x hx => ?_, ?_⟩
  · obtain ⟨c, _, hs⟩ := h.ppFree_eq hb hw he
    rw [hf] at hs
    cases hs
    have hne := ((h.snd_mem_erase he).1 (List.mem_map_of_mem hx)).2
    simp only [Pmm.released, Function.update_of_ne hne]
    exact h.marked x (List.mem_of_mem_erase hx)
  · exact h.nodup.sublist ((List.erase_sublist ..).map _)

theorem pageToPtr_bitmap (hr : s.Ready) (h : pageToPtr s i = .ok (p, s')) :
    s'.pageBitmap = s.pageBitmap ∧ s'.freePages = s.freePages ∧ s'.usedPages = s.usedPages := by
  obtain ⟨c, _, rfl⟩ := pageToPtr_moves hr h
  exact ⟨rfl, rfl, rfl⟩

theorem ptrToPage_bitmap (hr : s.Ready) (h : ptrToPage s p = .ok (i, s')) :
    s'.pageBitmap = s.pageBitmap ∧ s'.freePages = s.freePages ∧ s'.usedPages = s.usedPages := by
  obtain ⟨c, _, rfl⟩ := ptrToPage_moves hr h
  exact ⟨rfl, rfl, rfl⟩

theorem PmmRun.owned (hb : Admissible b) (hw : WindowsAgree b) (h₀ : PmmOwned b s₀ live₀)
    (hr : PmmRun b admits s₀ live₀ s live) : PmmOwned b s live := by
  induction hr with
  | start => exact h₀
  | alloc _ _ ha hp hi ih => exact ih.alloc ha hp hi
  | refused _ _ ha ih => exact ih.refused ha
  | free _ he hf ih => exact ih.free hb hw he hf
  | pageToPtr _ ha ih =>
    refine ⟨ih.inv.after_pageToPtr ha, ?_, ih.nodup⟩
    rw [(pageToPtr_bitmap ih.inv.ready ha).1]
    exact ih.marked
  | ptrToPage _ ha ih =>
    refine ⟨ih.inv.after_ptrToPage ha, ?_, ih.nodup⟩
    rw [(ptrToPage_bitmap ih.inv.ready ha).1]
    exact ih.marked

theorem setupPmm_owned (hb : Admissible b) (h : setupPmm b ram = .ok (p, s)) :
    PmmOwned b s (heldBySetup p s) := by
  obtain ⟨s₁, ha, hinv⟩ := setupPmm_ok hb.chunks h
  have hnil : PmmOwned b s₁ [] := ⟨hinv, (fun _ he => nomatch he), List.nodup_nil⟩
  by_cases hp : p = 0
  · subst hp
    exact hnil.refused ha
  · obtain ⟨i, _, hset, hi, _⟩ := hinv.alloc ha hp
    rw [heldBySetup, if_neg hp, hi]
    exact hnil.alloc ha hp hset

theorem setupPmm_owned_nil (hb : Admissible b) (h : setupPmm b ram = .ok (p, s)) :
    PmmOwned b s [] :=
  ⟨setupPmm_inv_nil hb h, (fun _ he => nomatch he), List.nodup_nil⟩

theorem PmmOwned.same_index (hw : WindowsAgree b) (h : PmmOwned b s live)
    (hp : Placed b i p) (he : (p, j) ∈ live) : i = j := by
  obtain ⟨hd, m, hm, hi, hpi⟩ := hp
  obtain ⟨_, m', hm', hj, hpj⟩ := h.inv.live _ he
  exact hw _ _ (hw.drawable hd) ⟨m, hm, m', hm', hi, hj, hpi.symm.trans hpj⟩

theorem PmmOwned.not_live (hw : WindowsAgree b) (h : PmmOwned b s live)
    (ha : ppAlloc b s = .ok (p, s')) (hp : p ≠ 0) : p ∉ live.map Prod.fst := by
  obtain ⟨i, hclear, _, _, hpl, _⟩ := h.inv.alloc ha hp
  intro hmem
  obtain ⟨⟨q, j⟩, he, rfl⟩ := List.mem_map.1 hmem
  obtain rfl := h.same_index hw hpl he
  have hmarked := h.marked _ he
  rw [hclear.2.2] at hmarked
  cases hmarked

/-- With agreeing windows `pp_alloc` never returns a page that is still live, the page the
self-test of `setup_pmm` keeps included. -/
theorem ppAlloc_not_live (hb : Admissible b) (hw : WindowsAgree b)
    (hs : setupPmm b ram = .ok (p₀, s₀))
    (hr : PmmRun b (fun _ => True) s₀ (heldBySetup p₀ s₀) s live)
    (ha : ppAlloc b s = .ok (p, s')) (hp : p ≠ 0) : p ∉ live.map Prod.fst :=
  (hr.owned hb hw (setupPmm_owned hb hs)).not_live hw ha hp

/-- With the map of `highKernel` the climb reaches index 4096, which the second window puts on
the page of index 3936. -/
theorem highKernel_double : Admissible highKernel ∧
    ∃ p₀ s₀ s live p s', setupPmm highKernel (fun _ => 0) = .ok (p₀, s₀) ∧
      PmmRun highKernel (fun _ => True) s₀ (heldBySetup p₀ s₀) s live ∧
      ppAlloc highKernel s = .ok (p, s') ∧ p ≠ 0 ∧ p ∈ live.map Prod.fst := by
  refine ⟨highKernel_admissible, ?_⟩
  obtain ⟨s₀, hs, hclimb⟩ := highKernel_setup fun _ => 0
  have hm₀ := highKernel_admissible.mapping_regular ⟨0x100000, 0, 4096⟩
    (by rw [highKernel_mappings]; exact List.mem_cons_self ..)
  obtain ⟨s, live, hr, hlast, _, hlive⟩ := hclimb.run .start highKernel_mappings hm₀ 4093
    (by decide) (by decide) (by decide) (fun i hi hle =>
      holdsIndex_iff.2 ⟨Nat.zero_lt_of_lt hi, Nat.lt_succ_of_le hle⟩)
  have hone : s.slot 1 = ⟨0x100000, 160, 524448⟩ := by
    rw [Pmm.slot, hlast.table, highKernel_mappings]
    rfl
  have hsearch := searchMappings_next hlast.ready (·.holdsIndex 4096)
    (by rw [hlast.cursor]; exact Nat.zero_le _)
    (by rw [hlast.cursor, hlast.slot_zero highKernel_mappings]; rfl)
    (by rw [hlast.cursor, hone]; rfl)
  rw [hlast.cursor, hone] at hsearch
  have halloc := hlast.ppAlloc_eq (by decide) (by decide) (by decide) hsearch
  exact ⟨_, s₀, s, live, _, _, hs, hr, halloc, by decide,
    List.mem_map.2 ⟨_, hlive 3936 (by decide) (by decide), rfl⟩⟩

theorem Admissible.placed_one (hb : Admissible b) (hm : b.mappings = [⟨base, 0, n⟩])
    (h : Placed b i p) : i < n ∧ p = base + i * pageSize := by
  obtain ⟨_, m, hmem, hh, rfl⟩ := h
  rw [(hb.mapping_regular m hmem).ptrOf_eq hh]
  rw [hm, List.mem_singleton] at hmem
  subst hmem
  exact ⟨(holdsIndex_iff.1 hh).2, rfl⟩

theorem Admissible.agree_one (hb : Admissible b) (hm : b.mappings = [⟨base, 0, n⟩]) :
    WindowsAgree b := by
  intro i j hi hpages
  obtain ⟨m, hmem, m', hmem', hh, hh', he⟩ := hpages
  rw [(hb.mapping_regular m hmem).ptrOf_eq hh, (hb.mapping_regular m' hmem').ptrOf_eq hh'] at he
  rw [hm, List.mem_singleton] at hmem hmem'
  subst hmem hmem'
  simp only [pageSize] at he
  omega

theorem oneChunk_agree : WindowsAgree oneChunk := oneChunk_admissible.agree_one oneChunk_mappings

theorem twoChunks_agree : WindowsAgree twoChunks := by
  intro i j _ ⟨m, hm, m', hm', hi, hj, he⟩
  rw [(twoChunks_admissible.mapping_regular m hm).ptrOf_eq hi,
    (twoChunks_admissible.mapping_regular m' hm').ptrOf_eq hj] at he
  rw [holdsIndex_iff] at hi hj
  obtain rfl | rfl := twoChunks_window hm <;> obtain rfl | rfl := twoChunks_window hm' <;>
    simp only [pageSize] at hi hj he <;> omega

/-- The allocator at an index behind which `twoChunks` has all indices up to 4098 clear. -/
structure AtGap (s : Pmm) (k : Nat) : Prop where
  ready : s.Ready
  table : s.pageMappings = twoChunks.mappings
  start : startPage twoChunks s = k
  clear : ∀ j, k < j → j ≤ 4098 → s.pageBitmap j = false

theorem AtGap.refused (h : AtGap s k) (hk : k = 4095 ∨ k = 4096) :
    ∃ s', ppAlloc twoChunks s = .ok (0, s') ∧ AtGap s' (k + 1) := by
  have hsmall : k + 1 < 4098 := by omega
  obtain ⟨p, c, hc, halloc, hl⟩ := ppAlloc_located (b := twoChunks) h.ready h.start
    (show k + 1 < maxPages by simp only [maxPages]; omega)
    (show k + 1 < 0x7fe00000 by omega) (h.clear (k + 1) (Nat.lt_succ_self k) (by omega))
  rcases hl with ⟨m, hm, hh, _⟩ | ⟨_, rfl⟩
  · rw [h.table] at hm
    rw [holdsIndex_iff] at hh
    obtain rfl | rfl := twoChunks_window hm <;> simp only at hh <;> omega
  · refine ⟨_, halloc, ⟨h.ready.slots, h.ready.room, hc⟩, h.table, startPage_eq ?_ ?_, ?_⟩
    · change k + 1 < 0x7fe00000 / pageSize
      simp only [pageSize]
      omega
    · change k + 1 < maxPages
      simp only [maxPages]
      omega
    · intro j hj hle
      have hne : j ≠ k + 1 := by omega
      simp only [Pmm.taken, Function.update_of_ne hne]
      exact h.clear j (by omega) hle

/-- With the map of `twoChunks` the pages of the first chunk are handed out, two calls fail, and
the next page is one of the second chunk. -/
theorem twoChunks_crossed : ∃ s₀ s live s',
    setupPmm twoChunks (fun _ => 0) = .ok (0x1002000, s₀) ∧
      PmmRun twoChunks (fun _ => True) s₀ (heldBySetup 0x1002000 s₀) s live ∧
      (∀ i, 2 < i → i ≤ 4095 → (0x1000000 + i * pageSize, i) ∈ live) ∧
      ppAlloc twoChunks s = .ok (0x3001000, s') := by
  obtain ⟨s₀, hs, hclimb⟩ := twoChunks_setup fun _ => 0
  have hm₀ := twoChunks_admissible.mapping_regular ⟨0x1000000, 0, 4096⟩
    (by rw [twoChunks_mappings]; exact List.mem_cons_self ..)
  have hheld : ∀ i, 2 < i → i ≤ 2 + 4093 →
      PageMapping.holdsIndex ⟨0x1000000, 0, 4096⟩ i = true := fun i hi hle =>
    holdsIndex_iff.2 ⟨Nat.zero_lt_of_lt hi, Nat.lt_succ_of_le hle⟩
  obtain ⟨s₁, live, hr, hlast, _, hlive⟩ := hclimb.run .start twoChunks_mappings hm₀ 4093
    (by decide) (by decide) (by decide) hheld
  have hgap : AtGap s₁ 4095 := ⟨hlast.ready, hlast.table, hlast.start, hlast.clear⟩
  obtain ⟨s₂, hrefused, hgap⟩ := hgap.refused (.inl rfl)
  obtain ⟨s₃, hrefused', hgap⟩ := hgap.refused (.inr rfl)
  obtain ⟨p, c, _, halloc, hl⟩ := ppAlloc_located (b := twoChunks) hgap.ready hgap.start
    (by decide) (by decide) (hgap.clear 4098 (by decide) (by decide))
  have hp : p = 0x3001000 := by
    rcases hl with ⟨m, hm, hh, rfl⟩ | ⟨hno, _⟩
    · rw [hgap.table] at hm
      obtain rfl | rfl := twoChunks_window hm
      · cases hh
      · rfl
    · have hsecond := hno ⟨0x3000000, 4097, 69633⟩
        (by rw [hgap.table, twoChunks_mappings]; decide)
      cases hsecond
  subst hp
  refine ⟨s₀, s₃, live, _, hs, (hr.refused trivial hrefused).refused trivial hrefused', ?_, halloc⟩
  intro i hi hle
  have hin := hlive i hi hle
  rwa [hm₀.ptrOf_eq (hheld i hi hle), Nat.sub_zero] at hin

theorem ppAlloc_not_live_twoChunks : ∃ s₀ s live s',
    setupPmm twoChunks (fun _ => 0) = .ok (0x1002000, s₀) ∧
      PmmRun twoChunks (fun _ => True) s₀ (heldBySetup 0x1002000 s₀) s live ∧
      (0x1fff000, 4095) ∈ live ∧ ppAlloc twoChunks s = .ok (0x3001000, s') ∧
      0x3001000 ∉ live.map Prod.fst := by
  obtain ⟨s₀, s, live, s', hs, hr, hlive, halloc⟩ := twoChunks_crossed
  exact ⟨s₀, s, live, s', hs, hr, hlive 4095 (by decide) (by decide), halloc,
    ppAlloc_not_live twoChunks_admissible twoChunks_agree hs hr halloc (by decide)⟩

/-- Every page an index may be put at lies in one chunk of free memory. -/
def WindowsInRam (b : BootInfo) : Prop :=
  ∀ i p, Placed b i p → Inside ⟨p, p + pageSize⟩ b.chunks

/-- `pp_alloc` returns whole pages of free memory above 1 MiB. -/
theorem ppAlloc_in_ram (hb : Admissible b) (hw : WindowsInRam b)
    (hs : setupPmm b ram = .ok (p₀, s₀))
    (hr : PmmRun b (fun _ => True) s₀ (heldBySetup p₀ s₀) s live)
    (ha : ppAlloc b s = .ok (p, s')) (hp : p ≠ 0) :
    p % pageSize = 0 ∧ 0x100000 ≤ p ∧ Inside ⟨p, p + pageSize⟩ b.chunks := by
  have hinv := hr.inv hb (setupPmm_inv hb hs)
  obtain ⟨i, _, _, _, hpl, _⟩ := hinv.alloc ha hp
  obtain ⟨halign, hlow⟩ := hb.placed_facts hpl
  exact ⟨halign, Nat.le_of_lt hlow, hw i p hpl⟩

/-- With the map of `lowKernel` the first page after `setup_pmm` lies in the kernel image. -/
theorem lowKernel_stray : Admissible lowKernel ∧
    ∃ p₀ s₀ p s', setupPmm lowKernel (fun _ => 0) = .ok (p₀, s₀) ∧
      ppAlloc lowKernel s₀ = .ok (p, s') ∧ p ≠ 0 ∧
      ¬Inside ⟨p, p + pageSize⟩ lowKernel.chunks ∧
      lowKernel.physicalBase ≤ p ∧
      p + pageSize ≤ lowKernel.physicalBase + lowKernel.executableFileSize := by
  refine ⟨lowKernel_admissible, ?_⟩
  obtain ⟨s₀, hs, hclimb⟩ := lowKernel_setup fun _ => 0
  have halloc := hclimb.ppAlloc_eq (by decide) (by decide) (by decide)
    (hclimb.search_zero lowKernel_mappings rfl)
  refine ⟨_, s₀, _, _, hs, halloc, by decide, ?_, by decide, by decide⟩
  rw [BootInfo.chunks, lowKernel_descriptor]
  simp only [Inside]
  decide

theorem Admissible.in_ram_one (hb : Admissible b) (hm : b.mappings = [⟨base, 0, n⟩])
    (hc : ⟨base, base + n * pageSize⟩ ∈ b.chunks) : WindowsInRam b := by
  intro i p hp
  obtain ⟨hi, rfl⟩ := hb.placed_one hm hp
  refine ⟨_, hc, Nat.le_add_right _ _, ?_⟩
  simp only [pageSize]
  omega

theorem oneChunk_in_ram : WindowsInRam oneChunk := by
  apply oneChunk_admissible.in_ram_one oneChunk_mappings
  rw [BootInfo.chunks, oneChunk_descriptor]
  exact List.mem_cons_self ..

theorem twoChunks_in_ram : WindowsInRam twoChunks := by
  intro i p ⟨_, m, hm, hi, hp⟩
  rw [(twoChunks_admissible.mapping_regular m hm).ptrOf_eq hi] at hp
  rw [BootInfo.chunks, twoChunks_descriptor]
  rw [holdsIndex_iff] at hi
  obtain rfl | rfl := twoChunks_window hm
  · refine ⟨⟨0x1000000, 0x2000000⟩, by decide, ?_, ?_⟩ <;>
      simp only [pageSize] at hi hp ⊢ <;> omega
  · refine ⟨⟨0x3000000, 0x13000000⟩, by decide, ?_, ?_⟩ <;>
      simp only [pageSize] at hi hp ⊢ <;> omega

theorem ppAlloc_in_ram_twoChunks : ∃ s₀ s live s',
    setupPmm twoChunks (fun _ => 0) = .ok (0x1002000, s₀) ∧
      PmmRun twoChunks (fun _ => True) s₀ (heldBySetup 0x1002000 s₀) s live ∧
      ppAlloc twoChunks s = .ok (0x3001000, s') ∧
      0x3001000 % pageSize = 0 ∧ 0x100000 ≤ 0x3001000 ∧
      Inside ⟨0x3001000, 0x3001000 + pageSize⟩ twoChunks.chunks := by
  obtain ⟨s₀, s, live, s', hs, hr, _, halloc⟩ := twoChunks_crossed
  exact ⟨s₀, s, live, s', hs, hr, halloc,
    ppAlloc_in_ram twoChunks_admissible twoChunks_in_ram hs hr halloc (by decide)⟩

/-- Entries whose contents the kernel still reads after `setup_pmm`: the bootloader's responses
and the ACPI tables. -/
def MemmapEntry.BootData (e : MemmapEntry) : Prop :=
  e.type = .bootloaderReclaimable ∨ e.type = .acpiReclaimable

theorem MemmapEntry.BootData.free (h : e.BootData) : isMemoryFree e.type = true := by
  rcases h with h | h <;> rw [h] <;> rfl

/-- The bytes of the page at `p` and of the entry `e` have none in common. -/
def MemmapEntry.Avoids (e : MemmapEntry) (p : Nat) : Prop :=
  p + pageSize ≤ e.base ∨ e.base + e.length ≤ p

/-- Boot data counts as free memory. A page `pp_alloc` returns stays clear of an entry of boot
data as long as no index is put on the entry. -/
theorem ppAlloc_boot_data (hb : Admissible b) (hs : setupPmm b ram = .ok (p₀, s₀))
    (he : e ∈ b.memmap) (hd : e.BootData) :
    Inside ⟨e.base, e.base + e.length⟩ b.chunks ∧
      ((∀ i p, Placed b i p → e.Avoids p) → ∀ s live p s',
        PmmRun b (fun _ => True) s₀ (heldBySetup p₀ s₀) s live →
        ppAlloc b s = .ok (p, s') → p ≠ 0 → e.Avoids p) := by
  obtain ⟨d, hdesc, _⟩ := bind_ok hs
  refine ⟨hb.free_inside hdesc he hd.free, fun hclear s live p s' hr ha hp => ?_⟩
  obtain ⟨i, _, _, _, hpl, _⟩ := (hr.inv hb (setupPmm_inv hb hs)).alloc ha hp
  exact hclear i p hpl

/-- With the map of `highKernel` the first page after `setup_pmm` is one of the bootloader's. -/
theorem highKernel_recycled : Admissible highKernel ∧
    ∃ p₀ s₀ p s', setupPmm highKernel (fun _ => 0) = .ok (p₀, s₀) ∧
      ppAlloc highKernel s₀ = .ok (p, s') ∧ p ≠ 0 ∧
      ∃ e ∈ highKernel.memmap, e.BootData ∧ ¬e.Avoids p := by
  refine ⟨highKernel_admissible, ?_⟩
  obtain ⟨s₀, hs, hclimb⟩ := highKernel_setup fun _ => 0
  have halloc := hclimb.ppAlloc_eq (by decide) (by decide) (by decide)
    (hclimb.search_zero highKernel_mappings rfl)
  refine ⟨_, s₀, _, _, hs, halloc, by decide,
    ⟨0x100000, 0x100000, .bootloaderReclaimable⟩, by decide, .inl rfl, ?_⟩
  simp only [MemmapEntry.Avoids]
  decide

/-- The ACPI tables below 1 MiB in the map of `highKernel` are never recycled. -/
theorem ppAlloc_boot_data_highKernel : ∃ p₀ s₀,
    setupPmm highKernel (fun _ => 0) = .ok (p₀, s₀) ∧ ∀ s live p s',
      PmmRun highKernel (fun _ => True) s₀ (heldBySetup p₀ s₀) s live →
      ppAlloc highKernel s = .ok (p, s') → p ≠ 0 →
      MemmapEntry.Avoids ⟨0x9f000, 0x1000, .acpiReclaimable⟩ p := by
  obtain ⟨s₀, hs, _⟩ := highKernel_setup fun _ => 0
  have hlow : ∀ i p, Placed highKernel i p →
      MemmapEntry.Avoids ⟨0x9f000, 0x1000, .acpiReclaimable⟩ p := fun i p hp =>
    .inr (Nat.le_of_lt (Nat.lt_trans (by decide) (highKernel_admissible.placed_facts hp).2))
  exact ⟨_, s₀, hs, (ppAlloc_boot_data highKernel_admissible hs (by decide) (.inr rfl)).2 hlow⟩

end AdaOS
