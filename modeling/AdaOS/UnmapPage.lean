import AdaOS.MapPage

namespace AdaOS
set_option autoImplicit true
open Radix

/-- Empty tables were taken out of the tree and given back, the last one first in the list. -/
inductive Shrinks (A : FrameAllocator σ) (root : BitVec 64) :
    Vmm σ → List (BitVec 64) → Vmm σ → Prop where
  | refl : Shrinks A root v [] v
  | unlinked : Shrinks A root v freed v' → Unlinked A root v' w p t i c →
      Shrinks A root v (c :: freed) w

/-- An entry of a table of the tree points to the table `c`. -/
def Vmm.References (v : Vmm σ) (root c : BitVec 64) : Prop :=
  ∃ q u j, q.length < 3 ∧ v.tableAt root q = some u ∧ pteNext (v.mem u j) = some c

variable {σ : Type} {A : FrameAllocator σ} {v v' w : Vmm σ} {root : BitVec 64}

theorem Vmm.References.isTable (h : v.References root c) : v.IsTable root c := by
  obtain ⟨q, u, j, hq, hu, hc⟩ := h
  exact ⟨q ++ [j], by simp; omega, (follow_step hu).trans hc⟩

theorem Shrinks.tree (h : Shrinks A root v freed v') (hv : v.Tree root) : v'.Tree root := by
  induction h with
  | refl => exact hv
  | unlinked _ hu ih => exact hu.tree ih

theorem Shrinks.tablesHeld (h : Shrinks A root v freed v') (hv : v.Tree root)
    (hh : v.TablesHeld A root) : v'.TablesHeld A root := by
  induction h with
  | refl => exact hh
  | unlinked hs hu ih => exact hu.tablesHeld (hs.tree hv) ih

theorem Shrinks.leafAt (h : Shrinks A root v freed v') (hv : v.Tree root) (hq : q.length = 3) :
    v'.leafAt root q j = v.leafAt root q j := by
  induction h with
  | refl => rfl
  | unlinked hs hu ih => exact (hu.leafAt (hs.tree hv) hq).trans ih

theorem Shrinks.trace (h : Shrinks A root v freed v') :
    v'.trace = freed.map .given ++ v.trace := by
  induction h with
  | refl => rfl
  | unlinked _ hu ih => rw [hu.trace, ih, List.map_cons, List.cons_append]

theorem Shrinks.isTable (h : Shrinks A root v freed v') (hv : v.Tree root) :
    v'.IsTable root u ↔ v.IsTable root u ∧ u ∉ freed := by
  induction h with
  | refl => simp
  | unlinked hs hu ih =>
    rw [hu.isTable (hs.tree hv), ih, List.mem_cons, not_or]
    exact ⟨fun ⟨⟨ht, hf⟩, hc⟩ => ⟨ht, hc, hf⟩, fun ⟨ht, hc, hf⟩ => ⟨⟨ht, hf⟩, hc⟩⟩

theorem Unlinked.child_isTable (h : Unlinked A root v v' p t i c) : v.IsTable root c := by
  have hs := h.short
  exact ⟨p ++ [i], by simp; omega, h.child⟩

theorem Unlinked.child_ne_root (h : Unlinked A root v v' p t i c) (hv : v.Tree root) :
    c ≠ root := by
  rintro rfl
  have hs := h.short
  have he := hv [] (p ++ [i]) c (by simp) (by simp; omega) rfl h.child
  simp at he

theorem Shrinks.nodup (h : Shrinks A root v freed v') (hv : v.Tree root) : freed.Nodup := by
  induction h with
  | refl => exact List.nodup_nil
  | unlinked hs hu ih =>
    have hc := (hs.isTable hv).1 hu.child_isTable
    exact List.nodup_cons.2 ⟨hc.2, ih⟩

theorem Shrinks.dead (h : Shrinks A root v freed v') (hv : v.Tree root) :
    ∀ c ∈ freed, v.IsTable root c ∧ c ≠ root ∧ ∀ j, v'.mem c j = 0 := by
  induction h with
  | refl => exact fun _ hc => nomatch hc
  | @unlinked freed v' w p t i c hs hu ih =>
    intro d hd
    have ht : v'.IsTable root t := ⟨p, Nat.le_of_lt hu.short, hu.table⟩
    rcases List.mem_cons.1 hd with rfl | hd
    · have hd' := (hs.isTable hv).1 hu.child_isTable
      refine ⟨hd'.1, hu.child_ne_root (hs.tree hv), fun j => ?_⟩
      have hne : d ≠ t := by
        rintro rfl
        have he := hs.tree hv p (p ++ [i]) d (Nat.le_of_lt hu.short)
          (by have hs := hu.short; simp; omega) hu.table hu.child
        simp at he
      rw [hu.mem, setEntry_node hne, hu.empty]
    · obtain ⟨hdt, hdr, hzero⟩ := ih d hd
      refine ⟨hdt, hdr, fun j => ?_⟩
      have hne : d ≠ t := by
        rintro rfl
        exact ((hs.isTable hv).1 ht).2 hd
      rw [hu.mem, setEntry_node hne, hzero]

theorem Shrinks.upper (h : Shrinks A root v freed v') (hv : v.Tree root) {i : Fin 512}
    (hi : 256 ≤ i.val) : v'.mem root i = v.mem root i := by
  induction h with
  | refl => rfl
  | @unlinked freed v' w p t j c hs hu ih =>
    rw [hu.mem, setEntry_of_ne, ih]
    by_cases hp : p = []
    · have hlow := hu.lower hp
      exact .inr fun he => by omega
    · refine .inl ?_
      rintro rfl
      exact hp (hs.tree hv p [] root (Nat.le_of_lt hu.short) (by simp) hu.table rfl)

theorem LeafSet.upper (h : LeafSet root v v' p t i e) (hv : v.Tree root) :
    v'.mem root j = v.mem root j := by
  have hne : root ≠ t := by
    rintro rfl
    have hdeep := h.deep
    have he := hv p [] root (Nat.le_of_eq hdeep) (by simp) h.table rfl
    rw [he] at hdeep
    cases hdeep
  rw [h.mem, setEntry_node hne]

theorem isTableEmpty_iff : isTableEmpty v t = true ↔ ∀ i, v.mem t i = 0 := decide_eq_true_iff

theorem Shrinks.level (h : Shrinks A root v freed v') (hv : v.Tree root)
    (ht : v'.tableAt root p = some t) (hp : p.length < 3)
    (hc : v'.tableAt root (p ++ [i]) = some c) (he : isTableEmpty v' c = true)
    (hlow : p = [] → i.val < 256) :
    Shrinks A root v (c :: freed) ((v'.write t i 0).ppFree A c) ∧ ∀ q, q.length ≤ p.length →
      ((v'.write t i 0).ppFree A c).tableAt root q = v'.tableAt root q := by
  have hu : Unlinked A root v' ((v'.write t i 0).ppFree A c) p t i c :=
    ⟨ht, hp, (follow_step ht).symm.trans hc, isTableEmpty_iff.1 he, hlow, rfl, rfl, rfl⟩
  refine ⟨h.unlinked hu, fun q hq => ?_⟩
  rw [hu.tableAt (h.tree hv) (by omega), if_neg]
  rintro rfl
  rw [List.length_append, List.length_singleton] at hq
  omega

theorem getNextLevel_eq : getNextLevel v t i = pteNext (v.mem t i) := rfl

theorem pteGetAddr_of_next (h : pteNext e = some c) : pteGetAddr e = c := by
  rw [pteNext] at h
  split at h
  · exact Option.some.inj h
  · cases h

/-- The cascade gives back at most the three tables on the path of the page. -/
theorem freeEmptyTables_cases (hv : v.Tree root)
    (h₁ : v.tableAt root [pml4Index virt] = some pdpt)
    (h₂ : v.tableAt root [pml4Index virt, pdptIndex virt] = some pd)
    (h₃ : v.tableAt root (tablePath virt) = some pt) :
    ∃ w freed, LeafSet root v w (tablePath virt) pt (ptIndex virt) 0 ∧
      Shrinks A root w freed (freeEmptyTables A v root pdpt pd pt virt) := by
  have hroot : v.tableAt root [] = some root := rfl
  have e₁ := pteGetAddr_of_next ((follow_step hroot).symm.trans h₁)
  have e₂ := pteGetAddr_of_next ((follow_step h₁).symm.trans h₂)
  have e₃ := pteGetAddr_of_next ((follow_step h₂).symm.trans h₃)
  have hset : LeafSet root v (v.write pt (ptIndex virt) 0) (tablePath virt) pt (ptIndex virt) 0 :=
    ⟨h₃, rfl, rfl, rfl, rfl⟩
  refine ⟨v.write pt (ptIndex virt) 0, ?_⟩
  simp only [freeEmptyTables, e₁, e₂, e₃]
  generalize v.write pt (ptIndex virt) 0 = v₁ at hset ⊢
  have hv₁ := hset.tree hv
  have k₃ := (hset.tableAt (q := tablePath virt) hv (Nat.le_refl 3)).trans h₃
  have k₂ := (hset.tableAt hv (by simp)).trans h₂
  have k₁ := (hset.tableAt hv (by simp)).trans h₁
  by_cases hpt : isTableEmpty v₁ pt = true
  · obtain ⟨hs₂, keep₂⟩ := Shrinks.refl.level (A := A) hv₁ k₂ (by simp) k₃ hpt (by simp)
    rw [if_pos hpt]
    generalize (v₁.write pd (pdIndex virt) 0).ppFree A pt = v₂ at hs₂ keep₂ ⊢
    by_cases hpd : isTableEmpty v₂ pd = true
    · obtain ⟨hs₃, keep₃⟩ := hs₂.level hv₁ ((keep₂ [_] (by simp)).trans k₁) (by simp)
        ((keep₂ [_, _] (by simp)).trans k₂) hpd (by simp)
      rw [if_pos hpd]
      generalize (v₂.write pdpt (pdptIndex virt) 0).ppFree A pd = v₃ at hs₃ keep₃ ⊢
      by_cases hpdpt : isTableEmpty v₃ pdpt = true
      · rw [if_pos hpdpt]
        by_cases hupper : (pml4Index virt).val ≥ 256
        · rw [if_pos hupper]
          exact ⟨_, hset, hs₃⟩
        · rw [if_neg hupper]
          have k₁' := (keep₃ [_] (by simp)).trans ((keep₂ [_] (by simp)).trans k₁)
          exact ⟨_, hset, (hs₃.level (p := []) hv₁ rfl (by simp) k₁' hpdpt fun _ =>
            Nat.lt_of_not_le hupper).1⟩
      · rw [if_neg hpdpt]
        exact ⟨_, hset, hs₃⟩
    · rw [if_neg hpd]
      exact ⟨_, hset, hs₂⟩
  · rw [if_neg hpt]
    exact ⟨[], hset, .refl⟩

theorem Vmm.translate_eq (v : Vmm σ) (root virt : BitVec 64) : v.translate root virt =
    (pteNext (v.mem root (pml4Index virt))).bind fun pdpt =>
      (pteNext (v.mem pdpt (pdptIndex virt))).bind fun pd =>
        (pteNext (v.mem pd (pdIndex virt))).bind fun pt => leafOf (v.mem pt (ptIndex virt)) := by
  rw [Vmm.translate, Vmm.leafAt, Vmm.tableAt, tablePath]
  simp only [follow, Option.bind_assoc, Option.bind_some]

/-- The walk of `unmap_page`: the page is not mapped and nothing happens, or the walk comes to the
table of its leaf entry and the cascade starts there. -/
theorem unmapPage_walk (ha : virt.toNat % pageSize = 0)
    (h : unmapPage A v root virt = (r, v')) :
    (v' = v ∧ v.translate root virt = none) ∨ ∃ pdpt pd pt,
      v.tableAt root [pml4Index virt] = some pdpt ∧
      v.tableAt root [pml4Index virt, pdptIndex virt] = some pd ∧
      v.tableAt root (tablePath virt) = some pt ∧
      v' = freeEmptyTables A v root pdpt pd pt virt := by
  rw [Vmm.translate_eq]
  rw [unmapPage, if_neg (not_not_intro ha)] at h
  simp only [getNextLevel_eq] at h
  cases h₁ : pteNext (v.mem root (pml4Index virt)) with
  | none =>
    rw [h₁] at h
    cases h
    exact .inl ⟨rfl, rfl⟩
  | some pdpt =>
    have k₁ : v.tableAt root [pml4Index virt] = some pdpt := (follow_step (p := []) rfl).trans h₁
    cases h₂ : pteNext (v.mem pdpt (pdptIndex virt)) with
    | none =>
      simp only [h₁, h₂] at h
      cases h
      exact .inl ⟨rfl, by rw [Option.bind_some, h₂]; rfl⟩
    | some pd =>
      have k₂ : v.tableAt root [pml4Index virt, pdptIndex virt] = some pd :=
        (follow_step k₁).trans h₂
      cases h₃ : pteNext (v.mem pd (pdIndex virt)) with
      | none =>
        simp only [h₁, h₂, h₃] at h
        cases h
        exact .inl ⟨rfl, by rw [Option.bind_some, h₂, Option.bind_some, h₃]; rfl⟩
      | some pt =>
        have k₃ : v.tableAt root (tablePath virt) = some pt := (follow_step k₂).trans h₃
        simp only [h₁, h₂, h₃] at h
        by_cases hp : hasFlag (v.mem pt (ptIndex virt)) ptePresent = true
        · rw [if_pos hp] at h
          cases h
          exact .inr ⟨pdpt, pd, pt, k₁, k₂, k₃, rfl⟩
        · rw [if_neg hp] at h
          cases h
          refine .inl ⟨rfl, ?_⟩
          rw [Option.bind_some, h₂, Option.bind_some, h₃, Option.bind_some, leafOf, if_neg hp]

theorem unmapPage_cases (hv : v.Tree root) (ha : virt.toNat % pageSize = 0)
    (h : unmapPage A v root virt = (r, v')) :
    (v' = v ∧ v.translate root virt = none) ∨ ∃ w pt freed,
      LeafSet root v w (tablePath virt) pt (ptIndex virt) 0 ∧ Shrinks A root w freed v' := by
  obtain hnone | ⟨pdpt, pd, pt, h₁, h₂, h₃, heq⟩ := unmapPage_walk ha h
  · exact .inl hnone
  · obtain ⟨w, freed, hset, hs⟩ := freeEmptyTables_cases (A := A) hv h₁ h₂ h₃
    exact .inr ⟨w, pt, freed, hset, heq ▸ hs⟩

/-- `unmap_page` removes one translation. Each frame it gives back was a table below the top
level, is empty and is pointed to by no table any more, and no frame is given back twice. The
entries of the top level for the higher half stay. -/
theorem unmapPage_spec (hv : v.Tree root) (ha : virt.toNat % pageSize = 0)
    (h : unmapPage A v root virt = (r, v')) :
    v'.translate root virt = none ∧
    (∀ w, pageNumber w ≠ pageNumber virt → v'.translate root w = v.translate root w) ∧
    (∃ freed : List (BitVec 64), v'.trace = freed.map .given ++ v.trace ∧ freed.Nodup ∧
      ∀ c ∈ freed, v.IsTable root c ∧ c ≠ root ∧ (∀ j, v'.mem c j = 0) ∧
        ¬v'.References root c) ∧
    ∀ i : Fin 512, 256 ≤ i.val → v'.mem root i = v.mem root i := by
  rcases unmapPage_cases hv ha h with ⟨rfl, hnone⟩ | ⟨u, pt, freed, hset, hs⟩
  · exact ⟨hnone, fun _ _ => rfl, ⟨[], rfl, List.nodup_nil, (fun _ hc => nomatch hc)⟩,
      fun _ _ => rfl⟩
  have hu := hset.tree hv
  refine ⟨?_, ?_, ⟨freed, ?_, hs.nodup hu, ?_⟩, ?_⟩
  · exact (hs.leafAt hu rfl).trans (hset.translate_self hv)
  · intro w hw
    exact (hs.leafAt hu rfl).trans (hset.translate_of_ne hv hw)
  · rw [hs.trace, hset.trace]
  · intro c hc
    obtain ⟨ht, hne, hzero⟩ := hs.dead hu c hc
    refine ⟨(hset.isTable hv).1 ht, hne, hzero, fun href => ?_⟩
    exact ((hs.isTable hu).1 href.isTable).2 hc
  · intro i hi
    exact (hs.upper hu hi).trans (hset.upper hv)

theorem unmapPage_spec_oneChunk : ∃ (v v' w : Vmm (OwnedPmm oneChunk)) (r : Bool),
    mapPage (pmmFrames oneChunk_sound) v 0x1002000 0xffff800000005000 0x5000 pteWritable =
      .ok (true, v') ∧
    unmapPage (pmmFrames oneChunk_sound) v' 0x1002000 0xffff800000005000 = (r, w) ∧
    w.translate 0x1002000 0xffff800000005000 = none ∧
    (∀ x, pageNumber x ≠ pageNumber 0xffff800000005000 →
      w.translate 0x1002000 x = v'.translate 0x1002000 x) ∧
    (∃ freed : List (BitVec 64), w.trace = freed.map .given ++ v'.trace ∧ freed.Nodup ∧
      ∀ c ∈ freed, v'.IsTable 0x1002000 c ∧ c ≠ 0x1002000 ∧ (∀ j, w.mem c j = 0) ∧
        ¬w.References 0x1002000 c) ∧
    ∀ i : Fin 512, 256 ≤ i.val → w.mem 0x1002000 i = v'.mem 0x1002000 i := by
  obtain ⟨x, hx, hl⟩ := oneChunk_frames
  obtain ⟨v', hm, _⟩ := mapPage_lasts (v := ⟨fun _ _ => 0, x, []⟩) (n := 0)
    (hl.mono (by decide)) 0x1002000 0xffff800000005000 0x5000 pteWritable
  obtain ⟨htree, hheld⟩ := Vmm.blank_tree (A := pmmFrames oneChunk_sound) hx
  obtain ⟨hr, _⟩ | ⟨_, u, pt, hg, hset⟩ := mapPage_cases htree hheld hm
  · cases hr
  have hv' := hset.tree (hg.inv htree hheld).1
  exact ⟨_, v', _, _, hm, rfl, unmapPage_spec hv' (by decide) rfl⟩

end AdaOS
