import AdaOS.PageMap
import AdaOS.TableReclaim

namespace AdaOS
set_option autoImplicit true
open Radix

/-- The tables of `u` are those of `v`, whatever has happened to the rest of memory and to the
allocator. -/
structure SameTables (A : FrameAllocator σ) (root : BitVec 64) (v u : Vmm σ) : Prop where
  mem : ∀ t, v.IsTable root t → u.mem t = v.mem t
  held : u.TablesHeld A root

variable {σ : Type} {A : FrameAllocator σ} {v v' u w : Vmm σ} {root : BitVec 64}

theorem SameTables.tree (h : SameTables A root v u) (hv : v.Tree root) : u.Tree root :=
  Vmm.tree_spared hv h.mem

theorem SameTables.translate (h : SameTables A root v u) (virt : BitVec 64) :
    u.translate root virt = v.translate root virt := Vmm.translate_spared h.mem virt

theorem descend_lasts_missing (flags t : BitVec 64) (h : A.Lasts (v.missing t p) v.frames) :
    ∃ pt v', descend A flags t p v = .ok (some pt, v') := by
  induction p generalizing t with
  | nil => exact ⟨t, v, rfl⟩
  | cons i p ih =>
    rw [Vmm.missing] at h
    cases hc : pteNext (v.mem t i) with
    | none =>
      rw [hc] at h
      exact descend_lasts flags t h
    | some c =>
      rw [hc] at h
      obtain ⟨pt, v', hd⟩ := ih c h
      exact ⟨pt, v', (bind_of_ok (getOrAllocateNextLevel_found hc flags) _).trans hd⟩

theorem mapPage_enough (h : A.Lasts (v.missing root (tablePath virt)) v.frames)
    (phys flags : BitVec 64) : ∃ v', mapPage A v root virt phys flags = .ok (true, v') := by
  obtain ⟨pt, w, hd⟩ := descend_lasts_missing (tableFlags flags) root h
  rw [mapPage_eq, bind_of_ok hd]
  exact ⟨_, rfl⟩

theorem mapPage_true (hv : v.Tree root) (hh : v.TablesHeld A root)
    (hm : mapPage A v root virt phys flags = .ok (true, v')) :
    v'.Tree root ∧ v'.TablesHeld A root ∧ ∀ addr, v'.translate root addr =
      if pageNumber addr = pageNumber virt then leafOf (pageBase phys ||| flags ||| ptePresent)
      else v.translate root addr := by
  obtain ⟨hr, _⟩ | ⟨_, w, pt, hg, hset⟩ := mapPage_cases hv hh hm
  · cases hr
  · obtain ⟨hw, hheld⟩ := hg.inv hv hh
    refine ⟨hset.tree hw, hset.tablesHeld hw hheld, fun addr => ?_⟩
    split
    · next hpage => rw [Vmm.translate_congr hpage, hset.translate_self hw]
    · next hpage => rw [hset.translate_of_ne hw hpage, hg.translate hv hh]

/-- A `map_page` that returns false changes no translation and leaves the tree well formed. From
any later state with the same tables the same call succeeds when there are pages for the tables
still missing, and every address is then translated as if it had succeeded the first time. -/
theorem mapPage_false (hv : v.Tree root) (hh : v.TablesHeld A root)
    (hm : mapPage A v root virt phys flags = .ok (false, v')) :
    (∀ addr, v'.translate root addr = v.translate root addr) ∧
      v'.Tree root ∧ v'.TablesHeld A root ∧
      ∀ u, SameTables A root v' u → A.Lasts (u.missing root (tablePath virt)) u.frames →
        ∃ u', mapPage A u root virt phys flags = .ok (true, u') ∧
          u'.Tree root ∧ u'.TablesHeld A root ∧
          ∀ w w', SameTables A root v w → mapPage A w root virt phys flags = .ok (true, w') →
            ∀ addr, u'.translate root addr = w'.translate root addr := by
  obtain ⟨_, hg⟩ | ⟨hr, _⟩ := mapPage_cases hv hh hm
  · obtain ⟨hv', hh'⟩ := hg.inv hv hh
    refine ⟨hg.translate hv hh, hv', hh', fun u hu hl => ?_⟩
    obtain ⟨u', hm'⟩ := mapPage_enough hl phys flags
    obtain ⟨htree, hheld, hretry⟩ := mapPage_true (hu.tree hv') hu.held hm'
    refine ⟨u', hm', htree, hheld, fun w w' hw hfirst addr => ?_⟩
    obtain ⟨_, _, hlate⟩ := mapPage_true (hw.tree hv) hw.held hfirst
    rw [hretry, hlate, hu.translate, hg.translate hv hh, hw.translate]
  · cases hr

/-- A pool of four pages, the first of them the top level of a pagemap. -/
def fourFrames : List Frame :=
  twoFrames ++ [⟨0x3000, by decide, by decide⟩, ⟨0x4000, by decide, by decide⟩]

theorem mapPage_false_fourFrames : ∃ (A : FrameAllocator (PoolState fourFrames))
    (v v' u u' : Vmm (PoolState fourFrames)),
    mapPage A v 0x1000 0x400000 0x5000 pteWritable = .ok (false, v') ∧
    (∀ addr, v'.translate 0x1000 addr = v.translate 0x1000 addr) ∧
    SameTables A 0x1000 v' u ∧
    mapPage A u 0x1000 0x400000 0x5000 pteWritable = .ok (true, u') := by
  obtain ⟨v', hm, htrace, hmissing⟩ : ∃ v', mapPage (framePool fourFrames (by decide))
      (⟨fun _ _ => 0, ⟨{0x1000, 0x3000, 0x4000}, by decide⟩, [.taken 0x1000]⟩ :
        Vmm (PoolState fourFrames)) 0x1000 0x400000 0x5000 pteWritable = .ok (false, v') ∧
      heldTables v'.trace = [0x2000, 0x1000] ∧ v'.missing 0x1000 (tablePath 0x400000) = 2 :=
    ⟨_, rfl, rfl, rfl⟩
  have ho : Vmm.Owned (framePool fourFrames (by decide))
      (⟨fun _ _ => 0, ⟨{0x1000, 0x3000, 0x4000}, by decide⟩, [.taken 0x1000]⟩ :
        Vmm (PoolState fourFrames)) 0x1000 :=
    .single (fun _ => rfl) rfl (Finset.mem_insert_self ..)
  obtain ⟨hkeep, _, _, hretry⟩ := mapPage_false ho.tree ho.held hm
  have hsame : SameTables (framePool fourFrames (by decide)) 0x1000 v'
      { v' with frames := ⟨{0x1000, 0x2000}, by decide⟩ } := by
    refine ⟨fun _ _ => rfl, fun t ht => ?_⟩
    have hlist := ((ho.map hm).exact t).2 ht
    rw [htrace] at hlist
    change t ∈ ({0x1000, 0x2000} : Finset (BitVec 64))
    rw [Finset.pair_comm]
    exact List.mem_toFinset.2 hlist
  obtain ⟨u', hu', _⟩ := hretry _ hsame (by
    change FrameAllocator.Lasts _ (v'.missing 0x1000 (tablePath 0x400000)) _
    rw [hmissing]
    exact ⟨_, _, rfl, _, _, rfl, trivial⟩)
  exact ⟨_, _, v', _, u', hm, hkeep, hsame, hu'⟩

end AdaOS
