import AdaOS.TableRuns

namespace AdaOS
set_option autoImplicit true
open Radix

variable {σ : Type} {A : FrameAllocator σ} {v v' w : Vmm σ} {root : BitVec 64}

/-- What the hardware allows on a page: a right is granted by every level or not at all. -/
structure Access where
  frame : BitVec 64
  writable : Bool
  executable : Bool
  deriving DecidableEq, Repr

def accessFrom (mem : BitVec 64 → Fin 512 → BitVec 64) : BitVec 64 → List (Fin 512) →
    Option Access
  | t, [] => some ⟨t, true, true⟩
  | t, i :: p =>
    if hasFlag (mem t i) ptePresent then
      (accessFrom mem (pteGetAddr (mem t i)) p).map fun a =>
        { a with
          writable := a.writable && hasFlag (mem t i) pteWritable
          executable := a.executable && !hasFlag (mem t i) pteNx }
    else none

def Vmm.access (v : Vmm σ) (root virt : BitVec 64) : Option Access :=
  accessFrom v.mem root (tablePath virt ++ [ptIndex virt])

/-- The entries that point to tables grant every right. -/
def Vmm.OpenTables (v : Vmm σ) (root : BitVec 64) : Prop :=
  ∀ p t i, p.length < 3 → v.tableAt root p = some t → pteNext (v.mem t i) ≠ none →
    hasFlag (v.mem t i) pteWritable = true ∧ hasFlag (v.mem t i) pteNx = false

theorem Vmm.openTables_of_empty (hz : ∀ i, v.mem root i = 0) : v.OpenTables root := by
  intro p t i _ ht hi
  obtain ⟨rfl, rfl⟩ := follow_empty (fun j => by rw [hz]; rfl) ht
  rw [hz] at hi
  exact absurd rfl hi

theorem Refused.openTables (h : Refused A v v') (ho : v.OpenTables root) : v'.OpenTables root := by
  intro p t i hp ht hi
  rw [h.mem] at hi ⊢
  exact ho p t i hp (h.tableAt.symm.trans ht) hi

theorem Linked.openTables (h : Linked A root v v' p t i f e) (hv : v.Tree root)
    (hh : v.TablesHeld A root) (ho : v.OpenTables root) : v'.OpenTables root := by
  intro q u j hq hu hj
  rw [h.tableAt hv hh (Nat.le_of_lt hq)] at hu
  split at hu
  · cases hu
    rw [h.mem, Function.update_self] at hj
    exact (hj rfl).elim
  · by_cases hsame : u = t ∧ j = i
    · obtain ⟨rfl, rfl⟩ := hsame
      have huf : u ≠ f := by
        rintro rfl
        exact h.not_table hh ⟨q, Nat.le_of_lt hq, hu⟩
      rw [h.mem, Function.update_of_ne huf, setEntry_self]
      exact h.access
    · have hne : u ≠ t ∨ j ≠ i := not_and_or.1 hsame
      rw [h.mem_of_ne hh ⟨q, Nat.le_of_lt hq, hu⟩ hne] at hj ⊢
      exact ho q u j hq hu hj

theorem LeafSet.openTables (h : LeafSet root v v' p t i e) (hv : v.Tree root)
    (ho : v.OpenTables root) :
    v'.OpenTables root := by
  intro q u j hq hu hj
  rw [h.tableAt hv (Nat.le_of_lt hq)] at hu
  have hut : u ≠ t := by
    rintro rfl
    have hqp := hv q p u (Nat.le_of_lt hq) (Nat.le_of_eq h.deep) hu h.table
    have hdeep := h.deep
    rw [← hqp] at hdeep
    omega
  rw [h.mem, setEntry_node hut] at hj ⊢
  exact ho q u j hq hu hj

theorem Grows.openTables (h : Grows A root v v') (hv : v.Tree root) (hh : v.TablesHeld A root)
    (ho : v.OpenTables root) : v'.OpenTables root := by
  induction h with
  | refl => exact ho
  | refused _ hr ih => exact hr.openTables ih
  | linked hg hl ih =>
    obtain ⟨hv', hh'⟩ := hg.inv hv hh
    exact hl.openTables hv' hh' ih

theorem Unlinked.openTables (h : Unlinked A root v v' p t i c) (hv : v.Tree root)
    (ho : v.OpenTables root) : v'.OpenTables root := by
  intro q u j hq hu hj
  rw [h.tableAt hv (Nat.le_of_lt hq)] at hu
  split at hu
  · cases hu
  · by_cases hsame : u = t ∧ j = i
    · obtain ⟨rfl, rfl⟩ := hsame
      rw [h.mem, setEntry_self] at hj
      exact (hj rfl).elim
    · have hne : u ≠ t ∨ j ≠ i := not_and_or.1 hsame
      rw [h.mem, setEntry_of_ne hne] at hj ⊢
      exact ho q u j hq hu hj

theorem Shrinks.openTables (h : Shrinks A root v freed v') (hv : v.Tree root)
    (ho : v.OpenTables root) : v'.OpenTables root := by
  induction h with
  | refl => exact ho
  | unlinked hs hu ih => exact hu.openTables (hs.tree hv) ih

theorem VmmRun.openTables (hr : VmmRun A root v v') (h : v.Owned A root)
    (hopen : v.OpenTables root) : v'.OpenTables root := by
  refine hr.keeps (P := fun w => w.OpenTables root) h hopen ?_ ?_ ?_
  · exact fun ho hg ih => hg.openTables ho.tree ho.held ih
  · exact fun ho hset ih => hset.openTables ho.tree ih
  · exact fun ho hs ih => hs.openTables ho.tree ih

theorem hasFlag_getFlags (h : ~~~pteAddrMask &&& flag = flag) :
    hasFlag (pteGetFlags e) flag = hasFlag e flag := by
  rw [hasFlag, hasFlag, pteGetFlags, BitVec.and_assoc, h]

/-- With open tables the leaf entry decides about the rights. -/
theorem Vmm.OpenTables.access (ho : v.OpenTables root) (virt : BitVec 64) : v.access root virt =
    (v.translate root virt).map fun (frame, flags) =>
      ⟨frame, hasFlag flags pteWritable, !hasFlag flags pteNx⟩ := by
  have hlevel : ∀ p t i q, p.length < 3 → v.tableAt root p = some t →
      accessFrom v.mem t (i :: q) = (pteNext (v.mem t i)).bind fun c => accessFrom v.mem c q := by
    intro p t i q hp ht
    rw [accessFrom, pteNext]
    by_cases hpres : hasFlag (v.mem t i) ptePresent = true
    · obtain ⟨hw, hx⟩ := ho p t i hp ht (by rw [pteNext, if_pos hpres]; exact Option.some_ne_none _)
      rw [if_pos hpres, if_pos hpres, hw, hx, Option.bind_some]
      simp
    · rw [if_neg hpres, if_neg hpres]
      rfl
  rw [Vmm.translate_eq, Vmm.access, tablePath]
  change accessFrom v.mem root [_, _, _, _] = _
  rw [hlevel [] root _ _ (by simp) rfl]
  cases h₁ : pteNext (v.mem root (pml4Index virt)) with
  | none => rfl
  | some pdpt =>
    have k₁ : v.tableAt root [pml4Index virt] = some pdpt := (follow_step (p := []) rfl).trans h₁
    rw [Option.bind_some, Option.bind_some, hlevel _ pdpt _ _ (by simp) k₁]
    cases h₂ : pteNext (v.mem pdpt (pdptIndex virt)) with
    | none => rfl
    | some pd =>
      have k₂ : v.tableAt root [pml4Index virt, pdptIndex virt] = some pd :=
        (follow_step k₁).trans h₂
      rw [Option.bind_some, Option.bind_some, hlevel _ pd _ _ (by simp) k₂]
      cases h₃ : pteNext (v.mem pd (pdIndex virt)) with
      | none => rfl
      | some pt =>
        rw [Option.bind_some, Option.bind_some, accessFrom, leafOf]
        by_cases hpres : hasFlag (v.mem pt (ptIndex virt)) ptePresent = true
        · have hwritable : hasFlag (pteGetFlags (v.mem pt (ptIndex virt))) pteWritable = _ :=
            hasFlag_getFlags (by decide)
          have hnx : hasFlag (pteGetFlags (v.mem pt (ptIndex virt))) pteNx = _ :=
            hasFlag_getFlags (by decide)
          rw [if_pos hpres, if_pos hpres, accessFrom, Option.map_some, Option.map_some]
          simp only [hwritable, hnx, Bool.true_and]
        · rw [if_neg hpres, if_neg hpres]
          rfl

/-- A pagemap as its users see it: the frame and the flags of each page of 48-bit addresses. -/
abbrev PageMap := BitVec 36 → Option (BitVec 64 × BitVec 64)

/-- The tree at `root` stands for the page map `M`. -/
structure Vmm.Maps (A : FrameAllocator σ) (v : Vmm σ) (root : BitVec 64) (M : PageMap) :
    Prop where
  tree : v.Tree root
  held : v.TablesHeld A root
  openTables : v.OpenTables root
  translate : ∀ virt, v.translate root virt = M (pageNumber virt)

theorem Vmm.Maps.access (h : v.Maps A root M) (virt : BitVec 64) : v.access root virt =
    (M (pageNumber virt)).map fun (frame, flags) =>
      ⟨frame, hasFlag flags pteWritable, !hasFlag flags pteNx⟩ := by
  rw [h.openTables.access, h.translate]

def pageAddress (q : BitVec 36) : BitVec 64 := q.setWidth 64 <<< 12

theorem pageNumber_address (q : BitVec 36) : pageNumber (pageAddress q) = q := by
  apply BitVec.eq_of_toNat_eq
  have hq := q.isLt
  rw [pageNumber_toNat, pageAddress, BitVec.toNat_shiftLeft, BitVec.toNat_setWidth,
    Nat.shiftLeft_eq]
  omega

/-- Every pagemap made of its own tables stands for some page map. -/
theorem Vmm.Owned.maps (h : v.Owned A root) (ho : v.OpenTables root) :
    v.Maps A root fun q => v.translate root (pageAddress q) :=
  ⟨h.tree, h.held, ho, fun _ => Vmm.translate_congr (pageNumber_address _).symm⟩

theorem Vmm.tableAt_spared (hm : ∀ t, v.IsTable root t → v'.mem t = v.mem t)
    (hq : q.length ≤ 3) : v'.tableAt root q = v.tableAt root q := by
  apply follow_congr
  intro p j r u hsplit hu
  have hlen : p.length ≤ 3 := by
    rw [hsplit, List.length_append] at hq
    omega
  rw [hm u ⟨p, hlen, hu⟩]

theorem Vmm.translate_spared (hm : ∀ t, v.IsTable root t → v'.mem t = v.mem t)
    (virt : BitVec 64) : v'.translate root virt = v.translate root virt := by
  rw [Vmm.translate, Vmm.translate]
  have hpath : v'.tableAt root (tablePath virt) = v.tableAt root (tablePath virt) :=
    Vmm.tableAt_spared hm (Nat.le_refl _)
  cases ht : v.tableAt root (tablePath virt) with
  | none => rw [Vmm.leafAt_none ht, Vmm.leafAt_none (hpath.trans ht)]
  | some t =>
    rw [Vmm.leafAt_eq ht, Vmm.leafAt_eq (hpath.trans ht), hm t ⟨_, Nat.le_refl _, ht⟩]

theorem Vmm.tree_spared (hv : v.Tree root) (hm : ∀ t, v.IsTable root t → v'.mem t = v.mem t) :
    v'.Tree root :=
  hv.of_follow fun _ _ hq ht => (Vmm.tableAt_spared hm hq).symm.trans ht

theorem Vmm.tablesHeld_spared (hh : v.TablesHeld A root)
    (hm : ∀ t, v.IsTable root t → v'.mem t = v.mem t)
    (hheld : A.held v.frames ⊆ A.held v'.frames) : v'.TablesHeld A root := by
  rintro t ⟨q, hq, ht⟩
  exact hheld (hh t ⟨q, hq, (Vmm.tableAt_spared hm hq).symm.trans ht⟩)

theorem Vmm.Maps.spared (h : v.Maps A root M) (hm : ∀ t, v.IsTable root t → v'.mem t = v.mem t)
    (hheld : A.held v.frames ⊆ A.held v'.frames) : v'.Maps A root M := by
  refine ⟨Vmm.tree_spared h.tree hm, Vmm.tablesHeld_spared h.held hm hheld, ?_, ?_⟩
  · intro q t i hq ht hi
    have ht' := (Vmm.tableAt_spared hm (Nat.le_of_lt hq)).symm.trans ht
    rw [hm t ⟨q, Nat.le_of_lt hq, ht'⟩] at hi ⊢
    exact h.openTables q t i hq ht' hi
  · intro virt
    rw [← h.translate, Vmm.translate_spared hm]

theorem ppAlloc_spares (hh : v.TablesHeld A root) (ha : v.ppAlloc A = .ok (r, v')) :
    (∀ t, v.IsTable root t → v'.mem t = v.mem t) ∧ A.held v.frames ⊆ A.held v'.frames := by
  rcases Vmm.ppAlloc_cases ha with ⟨_, hr⟩ | ⟨f, _, hc⟩
  · exact ⟨fun _ _ => congrFun hr.mem _, Finset.subset_of_eq hr.held.symm⟩
  · refine ⟨fun t ht => ?_, hc.held ▸ Finset.subset_insert ..⟩
    have htf : t ≠ f.addr := by
      rintro rfl
      exact hc.fresh (hh _ ht)
    rw [hc.mem, Function.update_of_ne htf]

theorem Vmm.Maps.ppAlloc (h : v.Maps A root M) (ha : v.ppAlloc A = .ok (r, v')) :
    v'.Maps A root M := by
  obtain ⟨hm, hheld⟩ := ppAlloc_spares h.held ha
  exact h.spared hm hheld

theorem Vmm.Maps.map (h : v.Maps A root M) (hp : phys.toNat < 2 ^ 52)
    (hf : pteGetAddr flags = 0) (hm : mapPage A v root virt phys flags = .ok (true, v')) :
    v'.Maps A root
      (Function.update M (pageNumber virt) (some (pageBase phys, flags ||| ptePresent))) := by
  obtain ⟨hr, _⟩ | ⟨_, u, pt, hg, hset⟩ := mapPage_cases h.tree h.held hm
  · cases hr
  obtain ⟨hu, hh⟩ := hg.inv h.tree h.held
  have hopen := hset.openTables hu (hg.openTables h.tree h.held h.openTables)
  refine ⟨hset.tree hu, hset.tablesHeld hu hh, hopen, ?_⟩
  intro w
  by_cases hw : pageNumber w = pageNumber virt
  · rw [hw, Function.update_self, Vmm.translate_congr hw, hset.translate_self hu,
      leafOf_map hp hf]
  · rw [Function.update_of_ne hw, hset.translate_of_ne hu hw, hg.translate h.tree h.held,
      h.translate]

theorem Vmm.Maps.map_cases (h : v.Maps A root M) (hp : phys.toNat < 2 ^ 52)
    (hf : pteGetAddr flags = 0) (hm : mapPage A v root virt phys flags = .ok (r, v')) :
    ∃ M', v'.Maps A root M' ∧
      (r = true ∧
        M' = Function.update M (pageNumber virt) (some (pageBase phys, flags ||| ptePresent)) ∨
        r = false ∧ M' = M ∧ M (pageNumber virt) = none) := by
  cases r with
  | true => exact ⟨_, h.map hp hf hm, .inl ⟨rfl, rfl⟩⟩
  | false =>
    obtain ⟨_, hg⟩ | ⟨hr, _⟩ := mapPage_cases h.tree h.held hm
    · obtain ⟨htree, hheld⟩ := hg.inv h.tree h.held
      have hopen := hg.openTables h.tree h.held h.openTables
      refine ⟨M, ⟨htree, hheld, hopen, fun w => ?_⟩, .inr ⟨rfl, rfl, ?_⟩⟩
      · exact (hg.translate h.tree h.held w).trans (h.translate w)
      · rw [← h.translate, Vmm.translate]
        cases ht : v.tableAt root (tablePath virt) with
        | none => exact Vmm.leafAt_none ht
        | some pt =>
          obtain ⟨w, hw, _⟩ := mapPage_present (A := A) ht phys flags
          rw [hm] at hw
          cases hw
    · cases hr

/-- A loop over pages with different page numbers sets each of them and no other page. -/
theorem Vmm.Maps.mapPages (h : v.Maps A root M)
    (hphys : ∀ i < n, (page (addr + i * pageSize)).2.1.toNat < 2 ^ 52)
    (hflags : ∀ i < n, pteGetAddr (page (addr + i * pageSize)).2.2 = 0)
    (hne : ∀ i < n, ∀ j < n, pageNumber (page (addr + i * pageSize)).1 =
      pageNumber (page (addr + j * pageSize)).1 → i = j)
    (hm : mapPages A root page msg addr n v = .ok v') :
    ∃ M', v'.Maps A root M' ∧
      (∀ i < n, M' (pageNumber (page (addr + i * pageSize)).1) =
        some (pageBase (page (addr + i * pageSize)).2.1,
          (page (addr + i * pageSize)).2.2 ||| ptePresent)) ∧
      ∀ q, (∀ i < n, q ≠ pageNumber (page (addr + i * pageSize)).1) → M' q = M q := by
  induction n generalizing addr v M with
  | zero =>
    cases hm
    exact ⟨M, h, fun i hi => absurd hi (Nat.not_lt_zero i), fun q _ => rfl⟩
  | succ n ih =>
    obtain ⟨⟨r, w⟩, hstep, hm⟩ := bind_ok hm
    cases r with
    | false => cases hm
    | true =>
      have hnext : ∀ i, addr + pageSize + i * pageSize = addr + (i + 1) * pageSize := by
        intro i
        rw [Nat.succ_mul]
        omega
      have hzero : addr + 0 * pageSize = addr := by omega
      have hphys₀ := hphys 0 (Nat.succ_pos n)
      have hflags₀ := hflags 0 (Nat.succ_pos n)
      rw [hzero] at hphys₀ hflags₀
      obtain ⟨M', hM', hset, hkeep⟩ := ih (h.map hphys₀ hflags₀ hstep)
        (fun i hi => by rw [hnext]; exact hphys (i + 1) (Nat.succ_lt_succ hi))
        (fun i hi => by rw [hnext]; exact hflags (i + 1) (Nat.succ_lt_succ hi))
        (fun i hi j hj he => by
          rw [hnext, hnext] at he
          exact Nat.succ.inj (hne _ (Nat.succ_lt_succ hi) _ (Nat.succ_lt_succ hj) he)) hm
      refine ⟨M', hM', ?_, ?_⟩
      · intro i hi
        cases i with
        | zero =>
          rw [hzero, hkeep, Function.update_self]
          intro j hj he
          rw [hnext, ← hzero] at he
          cases hne 0 (Nat.succ_pos n) (j + 1) (Nat.succ_lt_succ hj) (by rw [he, hzero])
        | succ i =>
          have hi' := hset i (Nat.lt_of_succ_lt_succ hi)
          rw [hnext] at hi'
          exact hi'
      · intro q hq
        have hq₀ := hq 0 (Nat.succ_pos n)
        rw [hzero] at hq₀
        rw [hkeep, Function.update_of_ne hq₀]
        intro i hi
        rw [hnext]
        exact hq (i + 1) (Nat.succ_lt_succ hi)

end AdaOS
