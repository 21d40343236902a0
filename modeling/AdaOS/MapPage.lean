import AdaOS.TableSteps
import AdaOS.PmmFrames

namespace AdaOS
set_option autoImplicit true
open Radix

/-- Tables were added to the tree, or refused, and nothing else happened to it. -/
inductive Grows (A : FrameAllocator σ) (root : BitVec 64) : Vmm σ → Vmm σ → Prop where
  | refl : Grows A root v v
  | refused : Grows A root v v' → Refused A v' w → Grows A root v w
  | linked : Grows A root v v' → Linked A root v' w p t i f e → Grows A root v w

/-- The descent of `map_page` along a path of indices: the table the path leads to, or nothing
when a page for a table on it is refused. -/
def descend (A : FrameAllocator σ) (flags : BitVec 64) :
    BitVec 64 → List (Fin 512) → Vmm σ → Except Fault (Option (BitVec 64) × Vmm σ)
  | t, [], v => .ok (some t, v)
  | t, i :: p, v => do
    match ← getOrAllocateNextLevel A v t i flags with
    | (none, v) => .ok (none, v)
    | (some c, v) => descend A flags c p v

variable {σ : Type} {A : FrameAllocator σ} {v v' w : Vmm σ} {root : BitVec 64}

theorem tableFlags_spec (flags : BitVec 64) : pteGetAddr (tableFlags flags) = 0 ∧
    tableFlags flags ≠ 0 ∧ hasFlag (tableFlags flags) ptePresent = true ∧
    hasFlag (tableFlags flags) pteWritable = true ∧
    hasFlag (tableFlags flags) pteNx = false := by
  rw [tableFlags]
  split <;> decide

theorem pteNext_link (f : Frame) (hl : pteGetAddr flags = 0)
    (hp : hasFlag flags ptePresent = true) : pteNext (f.addr ||| flags) = some f.addr := by
  rw [pteNext, hasFlag_or, hp, Bool.or_true, if_pos rfl, or_addr_of_disjoint f.aligned hl]

/-- Every outcome of `get_or_allocate_next_level`: the table is there, no page is left for it,
or a new one is hung in. -/
theorem getOrAllocateNextLevel_cases (hh : v.TablesHeld A root)
    (ht : v.tableAt root p = some t) (hp : p.length < 3)
    (hl : pteGetAddr flags = 0) (hf : flags = 0 ∨ hasFlag flags ptePresent = true ∧
      hasFlag flags pteWritable = true ∧ hasFlag flags pteNx = false)
    (h : getOrAllocateNextLevel A v t i flags = .ok (r, v')) :
    (∃ c, r = some c ∧ pteNext (v.mem t i) = some c ∧ v' = v) ∨
    (r = none ∧ pteNext (v.mem t i) = none ∧ Refused A v v') ∨
    (∃ f e, r = some f ∧ Linked A root v v' p t i f e) := by
  rw [getOrAllocateNextLevel] at h
  by_cases hpres : hasFlag (v.mem t i) ptePresent = true
  · rw [if_pos hpres] at h
    cases h
    exact .inl ⟨_, rfl, if_pos hpres, rfl⟩
  · rw [if_neg hpres] at h
    have hfree : pteNext (v.mem t i) = none := if_neg hpres
    obtain ⟨⟨o, v₁⟩, hall, h⟩ := bind_ok h
    rcases Vmm.ppAlloc_cases hall with ⟨rfl, hr⟩ | ⟨f, rfl, hc⟩
    · cases h
      exact .inr (.inl ⟨rfl, hfree, hr⟩)
    · cases h
      have hft : f.addr ≠ t := by
        intro he
        exact hc.fresh (he ▸ hh t ⟨p, Nat.le_of_lt hp, ht⟩)
      refine .inr (.inr ⟨f.addr, f.addr ||| (if flags ≠ 0 then flags else
        ptePresent ||| pteWritable), rfl, ht, hp, hfree, ?_, ?_, hc.fresh, ?_, hc.held, hc.trace⟩)
      · rcases hf with rfl | ⟨hp', _⟩
        · exact pteNext_link f rfl rfl
        · have hne : flags ≠ 0 := by
            rintro rfl
            cases hp'
          rw [if_pos hne]
          exact pteNext_link f hl hp'
      · have hnx : hasFlag f.addr pteNx = false := hasFlag_of_addr f.aligned rfl
        rw [hasFlag_or, hasFlag_or, hnx]
        rcases hf with rfl | ⟨hp', hw, hn⟩
        · exact ⟨Bool.or_true _, rfl⟩
        · have hne : flags ≠ 0 := by
            rintro rfl
            cases hp'
          rw [if_pos hne, hw, hn]
          exact ⟨Bool.or_true _, rfl⟩
      · simp only [Vmm.clear, Vmm.write, hc.mem, setEntry, Function.update_of_ne hft.symm]
        rw [Function.update_comm hft, Function.update_idem]

theorem Grows.trans (h : Grows A root v w) (h' : Grows A root w v') : Grows A root v v' := by
  induction h' with
  | refl => exact h
  | refused _ hr ih => exact ih.refused hr
  | linked _ hl ih => exact ih.linked hl

theorem Grows.inv (h : Grows A root v v') (hv : v.Tree root) (hh : v.TablesHeld A root) :
    v'.Tree root ∧ v'.TablesHeld A root := by
  induction h with
  | refl => exact ⟨hv, hh⟩
  | refused _ hr ih =>
    obtain ⟨hv', hh'⟩ := ih
    exact ⟨hr.tree hv', hr.tablesHeld hh'⟩
  | linked _ hl ih =>
    obtain ⟨hv', hh'⟩ := ih
    exact ⟨hl.tree hv' hh', hl.tablesHeld hv' hh'⟩

theorem Grows.leafAt (h : Grows A root v v') (hv : v.Tree root) (hh : v.TablesHeld A root)
    (hq : q.length = 3) : v'.leafAt root q j = v.leafAt root q j := by
  induction h with
  | refl => rfl
  | refused _ hr ih => exact hr.leafAt.trans ih
  | linked hg hl ih =>
    obtain ⟨hv', hh'⟩ := hg.inv hv hh
    exact (hl.leafAt hv' hh' hq).trans ih

theorem pageBase_page (virt : BitVec 64) : pageNumber (pageBase virt) = pageNumber virt := by
  have h : (~~~0xfff : BitVec 64).extractLsb' 12 36 = BitVec.allOnes 36 := by decide
  rw [pageNumber, pageBase, BitVec.extractLsb'_and, h, BitVec.and_allOnes]
  rfl

theorem Grows.descend (hg : Grows A root v v') (hv : v.Tree root) (hh : v.TablesHeld A root)
    (ht : v'.tableAt root p = some t) (hp : p.length < 3)
    (h : getOrAllocateNextLevel A v' t i (tableFlags flags) = .ok (r, w)) :
    Grows A root v w ∧ ∀ c, r = some c → w.tableAt root (p ++ [i]) = some c := by
  obtain ⟨hv', hh'⟩ := hg.inv hv hh
  obtain ⟨hl, _, hf⟩ := tableFlags_spec flags
  rcases getOrAllocateNextLevel_cases hh' ht hp hl (.inr hf) h with
    ⟨c, rfl, hc, rfl⟩ | ⟨rfl, _, hr⟩ | ⟨f, e, rfl, hlink⟩
  · refine ⟨hg, fun c' hc' => ?_⟩
    cases hc'
    exact (follow_step ht).trans hc
  · exact ⟨hg.refused hr, fun c' hc' => nomatch hc'⟩
  · refine ⟨hg.linked hlink, fun c' hc' => ?_⟩
    cases hc'
    exact hlink.tableAt_self hv' hh'

/-- Every outcome of `map_page`: the tree grows, and on success the leaf entry is set then. -/
theorem mapPage_cases (hv : v.Tree root) (hh : v.TablesHeld A root)
    (h : mapPage A v root virt phys flags = .ok (r, v')) :
    (r = false ∧ Grows A root v v') ∨ (r = true ∧ ∃ w pt, Grows A root v w ∧
      LeafSet root w v' (tablePath virt) pt (ptIndex virt)
        (pageBase phys ||| flags ||| ptePresent)) := by
  obtain ⟨h₁, h₂, h₃, h₄⟩ := pageNumber_eq_iff.1 (pageBase_page virt)
  obtain ⟨⟨r₁, v₁⟩, e₁, h⟩ := bind_ok h
  obtain ⟨hg₁, ht₁⟩ := Grows.refl.descend hv hh (p := []) rfl (by decide) e₁
  cases r₁ with
  | none =>
    cases h
    exact .inl ⟨rfl, hg₁⟩
  | some pdpt =>
    obtain ⟨⟨r₂, v₂⟩, e₂, h⟩ := bind_ok h
    obtain ⟨hg₂, ht₂⟩ := hg₁.descend hv hh (ht₁ _ rfl) (by simp) e₂
    cases r₂ with
    | none =>
      cases h
      exact .inl ⟨rfl, hg₂⟩
    | some pd =>
      obtain ⟨⟨r₃, v₃⟩, e₃, h⟩ := bind_ok h
      obtain ⟨hg₃, ht₃⟩ := hg₂.descend hv hh (ht₂ _ rfl) (by simp) e₃
      cases r₃ with
      | none =>
        cases h
        exact .inl ⟨rfl, hg₃⟩
      | some pt =>
        cases h
        have hpath := ht₃ pt rfl
        rw [h₁, h₂, h₃] at hpath
        exact .inr ⟨rfl, v₃, pt, hg₃, hpath, rfl, by rw [h₄]; rfl, rfl, rfl⟩

theorem getOrAllocateNextLevel_lasts (h : A.Lasts (n + 1) v.frames) (t : BitVec 64)
    (i : Fin 512) (flags : BitVec 64) :
    ∃ c v', getOrAllocateNextLevel A v t i flags = .ok (some c, v') ∧ A.Lasts n v'.frames ∧
      (.refused ∉ v.trace → .refused ∉ v'.trace) := by
  rw [getOrAllocateNextLevel]
  by_cases hpres : hasFlag (v.mem t i) ptePresent = true
  · rw [if_pos hpres]
    exact ⟨_, v, rfl, h.mono (Nat.le_succ n), fun hno => hno⟩
  · obtain ⟨f, s, ha, hl⟩ := h
    rw [if_neg hpres, allocateNextLevel, Vmm.ppAlloc, ha]
    refine ⟨_, _, rfl, hl, fun hno hm => ?_⟩
    rcases List.mem_cons.1 hm with he | hm
    · cases he
    · exact hno hm

theorem mapPage_lasts (h : A.Lasts (n + 3) v.frames) (pml4 virt phys flags : BitVec 64) :
    ∃ v', mapPage A v pml4 virt phys flags = .ok (true, v') ∧ A.Lasts n v'.frames ∧
      (.refused ∉ v.trace → .refused ∉ v'.trace) := by
  obtain ⟨pdpt, v₁, h₁, hl₁, hn₁⟩ := getOrAllocateNextLevel_lasts h pml4
    (pml4Index (pageBase virt)) (tableFlags flags)
  obtain ⟨pd, v₂, h₂, hl₂, hn₂⟩ := getOrAllocateNextLevel_lasts hl₁ pdpt
    (pdptIndex (pageBase virt)) (tableFlags flags)
  obtain ⟨pt, v₃, h₃, hl₃, hn₃⟩ := getOrAllocateNextLevel_lasts hl₂ pd
    (pdIndex (pageBase virt)) (tableFlags flags)
  refine ⟨v₃.write pt (ptIndex (pageBase virt)) (pageBase phys ||| flags ||| ptePresent),
    ?_, hl₃, fun hno => hn₃ (hn₂ (hn₁ hno))⟩
  rw [mapPage]
  refine (bind_of_ok h₁ _).trans ?_
  refine (bind_of_ok h₂ _).trans ?_
  exact bind_of_ok h₃ _

theorem tablePath_pageBase (virt : BitVec 64) : tablePath (pageBase virt) = tablePath virt := by
  obtain ⟨h₁, h₂, h₃, _⟩ := pageNumber_eq_iff.1 (pageBase_page virt)
  rw [tablePath, tablePath, h₁, h₂, h₃]

theorem mapPage_eq (v : Vmm σ) (root virt phys flags : BitVec 64) :
    mapPage A v root virt phys flags =
      (descend A (tableFlags flags) root (tablePath virt) v >>= fun x => match x with
        | (none, v) => .ok (false, v)
        | (some pt, v) => .ok (true, v.write pt (ptIndex (pageBase virt))
            (pageBase phys ||| flags ||| ptePresent))) := by
  rw [← tablePath_pageBase, mapPage, tablePath]
  simp only [descend]
  cases getOrAllocateNextLevel A v root (pml4Index (pageBase virt)) (tableFlags flags) with
  | error e => rfl
  | ok x =>
    obtain ⟨_ | pdpt, v⟩ := x
    · rfl
    · change (getOrAllocateNextLevel A v pdpt _ _ >>= _) =
        (getOrAllocateNextLevel A v pdpt _ _ >>= _) >>= _
      cases getOrAllocateNextLevel A v pdpt (pdptIndex (pageBase virt)) (tableFlags flags) with
      | error e => rfl
      | ok x =>
        obtain ⟨_ | pd, v⟩ := x
        · rfl
        · change (getOrAllocateNextLevel A v pd _ _ >>= _) =
            (getOrAllocateNextLevel A v pd _ _ >>= _) >>= _
          cases getOrAllocateNextLevel A v pd (pdIndex (pageBase virt)) (tableFlags flags) with
          | error e => rfl
          | ok x =>
            obtain ⟨_ | pt, v⟩ := x <;> rfl

theorem getOrAllocateNextLevel_held (h : getOrAllocateNextLevel A v t i flags = .ok (r, v')) :
    A.held v.frames ⊆ A.held v'.frames := by
  rw [getOrAllocateNextLevel] at h
  split at h
  · cases h
    exact Finset.Subset.refl _
  · obtain ⟨⟨x, w⟩, ha, h⟩ := bind_ok h
    rcases Vmm.ppAlloc_cases ha with ⟨rfl, hr⟩ | ⟨f, rfl, hc⟩
    · cases h
      exact hr.held.symm.subset
    · cases h
      exact hc.held ▸ Finset.subset_insert ..

theorem descend_held (h : descend A flags t p v = .ok (r, v')) :
    A.held v.frames ⊆ A.held v'.frames := by
  induction p generalizing t v with
  | nil =>
    cases h
    exact Finset.Subset.refl _
  | cons i p ih =>
    obtain ⟨⟨c, w⟩, hget, h⟩ := bind_ok h
    have hw := getOrAllocateNextLevel_held hget
    cases c with
    | none =>
      cases h
      exact hw
    | some c => exact hw.trans (ih h)

theorem mapPage_held (h : mapPage A v root virt phys flags = .ok (r, v')) :
    A.held v.frames ⊆ A.held v'.frames := by
  rw [mapPage_eq] at h
  obtain ⟨⟨pt, w⟩, hd, h⟩ := bind_ok h
  have hw := descend_held hd
  cases pt with
  | none =>
    cases h
    exact hw
  | some pt =>
    cases h
    exact hw

theorem descend_lasts (flags t : BitVec 64) (h : A.Lasts p.length v.frames) :
    ∃ pt v', descend A flags t p v = .ok (some pt, v') := by
  induction p generalizing t v with
  | nil => exact ⟨t, v, rfl⟩
  | cons i p ih =>
    obtain ⟨c, w, hget, hl, _⟩ := getOrAllocateNextLevel_lasts h t i flags
    obtain ⟨pt, v', hd⟩ := ih c hl
    exact ⟨pt, v', (bind_of_ok hget _).trans hd⟩

theorem getOrAllocateNextLevel_found (h : pteNext (v.mem t i) = some c) (flags : BitVec 64) :
    getOrAllocateNextLevel A v t i flags = .ok (some c, v) := by
  rw [pteNext] at h
  rw [getOrAllocateNextLevel]
  split at h
  · next hpres =>
    cases h
    rw [if_pos hpres]
  · cases h

theorem descend_present (flags : BitVec 64) (h : follow pteNext v.mem t p = some pt) :
    descend A flags t p v = .ok (some pt, v) := by
  induction p generalizing t with
  | nil =>
    cases h
    rfl
  | cons i p ih =>
    rw [follow] at h
    obtain ⟨c, hc, h⟩ := Option.bind_eq_some_iff.1 h
    exact (bind_of_ok (getOrAllocateNextLevel_found hc flags) _).trans (ih h)

theorem mapPage_present (h : v.tableAt root (tablePath virt) = some pt)
    (phys flags : BitVec 64) : ∃ v', mapPage A v root virt phys flags = .ok (true, v') ∧
      LeafSet root v v' (tablePath virt) pt (ptIndex virt)
        (pageBase phys ||| flags ||| ptePresent) := by
  obtain ⟨_, _, _, hindex⟩ := pageNumber_eq_iff.1 (pageBase_page virt)
  rw [mapPage_eq, hindex]
  exact ⟨_, bind_of_ok (descend_present _ h) _, h, rfl, rfl, rfl, rfl⟩

theorem Grows.translate (h : Grows A root v v') (hv : v.Tree root) (hh : v.TablesHeld A root)
    (virt : BitVec 64) : v'.translate root virt = v.translate root virt := h.leafAt hv hh rfl

theorem leafOf_map (hp : phys.toNat < 2 ^ 52) (hf : pteGetAddr flags = 0) :
    leafOf (pageBase phys ||| flags ||| ptePresent) =
      some (pageBase phys, flags ||| ptePresent) := by
  have hor : pteGetAddr (flags ||| ptePresent) = pteGetAddr flags ||| pteGetAddr ptePresent := by
    simp only [pteGetAddr]
    rw [BitVec.and_comm, BitVec.and_or_distrib_left, BitVec.and_comm,
      BitVec.and_comm pteAddrMask ptePresent]
  have hflags : pteGetAddr (flags ||| ptePresent) = 0 := by
    rw [hor, hf]
    rfl
  have hbase := pageBase_addr hp
  have hpres : hasFlag ptePresent ptePresent = true := rfl
  rw [BitVec.or_assoc, leafOf, hasFlag_or, hasFlag_or, or_addr_of_disjoint hbase hflags,
    or_flags_of_disjoint hbase hflags, hpres, Bool.or_true, Bool.or_true]
  rfl

/-- `map_page` refines the hardware's walk: the page is mapped to the frame with these flags,
and the walk of every other page gives what it gave before. -/
theorem mapPage_translate (hv : v.Tree root) (hh : v.TablesHeld A root)
    (hp : phys.toNat < 2 ^ 52) (hf : pteGetAddr flags = 0)
    (h : mapPage A v root virt phys flags = .ok (true, v')) :
    v'.translate root virt = some (pageBase phys, flags ||| ptePresent) ∧
      ∀ w, pageNumber w ≠ pageNumber virt → v'.translate root w = v.translate root w := by
  obtain ⟨hr, _⟩ | ⟨_, u, pt, hg, hset⟩ := mapPage_cases hv hh h
  · cases hr
  have hu := (hg.inv hv hh).1
  constructor
  · rw [hset.translate_self hu, leafOf_map hp hf]
  · intro w hw
    rw [hset.translate_of_ne hu hw, hg.translate hv hh]

theorem mapPage_translate_oneChunk : ∃ v v' : Vmm (OwnedPmm oneChunk),
    mapPage (pmmFrames oneChunk_sound) v 0x1002000 0xffff800000005000 0x5000 pteWritable =
      .ok (true, v') ∧
    v'.translate 0x1002000 0xffff800000005000 = some (0x5000, pteWritable ||| ptePresent) ∧
    ∀ w, pageNumber w ≠ pageNumber 0xffff800000005000 →
      v'.translate 0x1002000 w = v.translate 0x1002000 w := by
  obtain ⟨x, hx, hl⟩ := oneChunk_frames
  obtain ⟨v', hm, _⟩ := mapPage_lasts (v := ⟨fun _ _ => 0, x, []⟩) (n := 0)
    (hl.mono (by decide)) 0x1002000 0xffff800000005000 0x5000 pteWritable
  obtain ⟨htree, hheld⟩ := Vmm.blank_tree (A := pmmFrames oneChunk_sound) hx
  exact ⟨_, v', hm, mapPage_translate htree hheld (by decide) rfl hm⟩

end AdaOS
