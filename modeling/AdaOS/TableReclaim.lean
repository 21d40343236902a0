import AdaOS.TableRuns

namespace AdaOS
set_option autoImplicit true
open Radix

/-- The number of tables that a path from `t` still needs. -/
def Vmm.missing (v : Vmm σ) : BitVec 64 → List (Fin 512) → Nat
  | _, [] => 0
  | t, i :: p =>
    match pteNext (v.mem t i) with
    | some c => v.missing c p
    | none => p.length + 1

/-- An allocator that has a frame for `map_page` has one for each table it needs. -/
def AllOrNone (A : FrameAllocator σ) (root : BitVec 64) (v : Vmm σ) (virt : BitVec 64) : Prop :=
  A.Lasts 1 v.frames → A.Lasts (v.missing root (tablePath virt)) v.frames

/-- A path into the lower half of the address space. -/
def LowPath (p : List (Fin 512)) : Prop := ∃ i r, p = i :: r ∧ i.val < 256

/-- The lower half is made of the tables taken and not given back, and none of them is empty but
the one at `p`; in all of it an entry that is not present is zero. -/
structure Vmm.Tidy (A : FrameAllocator σ) (v : Vmm σ) (root : BitVec 64)
    (p : List (Fin 512)) : Prop where
  tree : v.Tree root
  held : v.TablesHeld A root
  taken : ∀ t, t ∈ heldTables v.trace ↔
    ∃ q, LowPath q ∧ q.length ≤ 3 ∧ v.tableAt root q = some t
  nodup : (heldTables v.trace).Nodup
  clean : ∀ q t i, LowPath (q ++ [i]) → q.length ≤ 3 → v.tableAt root q = some t →
    pteNext (v.mem t i) = none → v.mem t i = 0
  filled : ∀ q t, LowPath q → q.length ≤ 3 → q ≠ p → v.tableAt root q = some t →
    ∃ i, v.mem t i ≠ 0

/-- Runs of `map_page` and `unmap_page` on addresses of the lower half, with the pages mapped and
not unmapped since; each `map_page` meets the condition `may` in the state it starts from. -/
inductive LowerRun (A : FrameAllocator σ) (root : BitVec 64) (may : Vmm σ → BitVec 64 → Prop)
    (v : Vmm σ) : Set (BitVec 36) → Vmm σ → Prop where
  | start : LowerRun A root may v ∅ v
  | map : LowerRun A root may v S w → (pml4Index virt).val < 256 → may w virt →
      mapPage A w root virt phys flags = .ok (r, w') →
      LowerRun A root may v (if r then insert (pageNumber virt) S else S) w'
  | unmap : LowerRun A root may v S w → (pml4Index virt).val < 256 →
      unmapPage A w root virt = (r, w') →
      LowerRun A root may v (if r then S \ {pageNumber virt} else S) w'

/-- A well-formed pagemap with an empty lower half, before any call. -/
structure Vmm.LowerEmpty (A : FrameAllocator σ) (v : Vmm σ) (root : BitVec 64) : Prop where
  tree : v.Tree root
  held : v.TablesHeld A root
  zero : ∀ i : Fin 512, i.val < 256 → v.mem root i = 0
  trace : v.trace = []

variable {σ : Type} {A : FrameAllocator σ} {v v' w : Vmm σ} {root : BitVec 64}
  {p : List (Fin 512)} {S : Set (BitVec 36)}

theorem LowPath.append (h : LowPath p) : LowPath (p ++ q) := by
  obtain ⟨i, r, rfl, hi⟩ := h
  exact ⟨i, r ++ q, rfl, hi⟩

theorem LowPath.front (h : LowPath (p ++ i :: q)) : LowPath (p ++ [i]) := by
  obtain ⟨j, r, he, hj⟩ := h
  cases p with
  | nil =>
    cases he
    exact ⟨i, [], rfl, hj⟩
  | cons k p =>
    cases he
    exact ⟨_, _, rfl, hj⟩

theorem lowPath_tablePath (h : (pml4Index virt).val < 256) : LowPath (tablePath virt) :=
  ⟨_, _, rfl, h⟩

theorem ne_zero_of_next (h : pteNext e = some c) : e ≠ 0 := by
  rintro rfl
  cases h

theorem Vmm.missing_le (v : Vmm σ) (t : BitVec 64) (p : List (Fin 512)) :
    v.missing t p ≤ p.length := by
  induction p generalizing t with
  | nil => exact Nat.le_refl 0
  | cons i p ih =>
    rw [Vmm.missing]
    cases pteNext (v.mem t i) with
    | none => exact Nat.le_refl _
    | some c => exact Nat.le_succ_of_le (ih c)

theorem getOrAllocateNextLevel_lasts_one (hfree : pteNext (v.mem t i) = none)
    (h : getOrAllocateNextLevel A v t i flags = .ok (some c, w)) : A.Lasts 1 v.frames := by
  rw [← getNextLevel_eq, getNextLevel] at hfree
  rw [getOrAllocateNextLevel] at h
  split at h
  · next hpres =>
    rw [if_pos hpres] at hfree
    cases hfree
  · obtain ⟨⟨o, u⟩, hall, h⟩ := bind_ok h
    obtain ⟨⟨o', s⟩, hal, hall⟩ := bind_ok hall
    cases o' with
    | none =>
      cases hall
      cases h
    | some f => exact ⟨f, s, hal, trivial⟩

/-- With an allocator that gives all frames or none, a descent that is refused a page has not
taken one before. -/
theorem descend_refused (hv : v.Tree root) (hh : v.TablesHeld A root)
    (ht : v.tableAt root q = some t) (hlen : q.length + p.length ≤ 3)
    (hall : A.Lasts 1 v.frames → A.Lasts (v.missing t p) v.frames)
    (hd : descend A (tableFlags flags) t p v = .ok (none, v')) : Refused A v v' := by
  induction p generalizing q t with
  | nil => cases hd
  | cons i p ih =>
    rw [List.length_cons] at hlen
    obtain ⟨⟨r, w⟩, hget, hrest⟩ := bind_ok hd
    obtain ⟨hl, _, hf⟩ := tableFlags_spec flags
    rcases getOrAllocateNextLevel_cases hh ht (by omega) hl (.inr hf) hget with
      ⟨c, rfl, hc, rfl⟩ | ⟨rfl, _, hr⟩ | ⟨f, e, rfl, hlink⟩
    · rw [Vmm.missing, hc] at hall
      have hchild : w.tableAt root (q ++ [i]) = some c := (follow_step ht).trans hc
      exact ih hchild (by simp; omega) hall hrest
    · cases hrest
      exact hr
    · exfalso
      rw [Vmm.missing, hlink.free] at hall
      have hmany := hall (getOrAllocateNextLevel_lasts_one hlink.free hget)
      obtain ⟨c, w', hget', hlast, _⟩ := getOrAllocateNextLevel_lasts hmany t i (tableFlags flags)
      rw [hget] at hget'
      cases hget'
      obtain ⟨pt, v'', hd'⟩ := descend_lasts (tableFlags flags) f hlast
      have hsome := hrest.symm.trans hd'
      cases hsome

section Tidy
variable (h : v.Tidy A root p)
include h

theorem Vmm.Tidy.refused (hr : Refused A v v') : v'.Tidy A root p := by
  have ht := hr.heldTables_eq
  refine ⟨hr.tree h.tree, hr.tablesHeld h.held, fun t => ?_, ht ▸ h.nodup, ?_, ?_⟩
  · simp only [ht, hr.tableAt]
    exact h.taken t
  · intro q t i hq hlen hat hi
    rw [hr.mem] at hi ⊢
    exact h.clean q t i hq hlen (hr.tableAt.symm.trans hat) hi
  · intro q t hq hlen hne hat
    rw [hr.mem]
    exact h.filled q t hq hlen hne (hr.tableAt.symm.trans hat)

theorem Vmm.Tidy.full (hne : ∀ t, v.tableAt root p = some t → ∃ i, v.mem t i ≠ 0)
    (r : List (Fin 512)) : v.Tidy A root r := by
  refine ⟨h.tree, h.held, h.taken, h.nodup, h.clean, fun q t hq hlen _ hat => ?_⟩
  by_cases hqp : q = p
  · exact hne t (hqp ▸ hat)
  · exact h.filled q t hq hlen hqp hat

theorem Vmm.Tidy.clean_entry (hm : v'.mem u = setEntry v.mem t i e u)
    (he : pteNext e = none → e = 0) (hlow : LowPath (r ++ [j])) (hlen : r.length ≤ 3)
    (hat : v.tableAt root r = some u) (hj : pteNext (v'.mem u j) = none) : v'.mem u j = 0 := by
  rw [hm] at hj ⊢
  by_cases hsame : u = t ∧ j = i
  · obtain ⟨rfl, rfl⟩ := hsame
    rw [setEntry_self] at hj ⊢
    exact he hj
  · rw [setEntry_of_ne (not_and_or.1 hsame)] at hj ⊢
    exact h.clean r u j hlow hlen hat hj

theorem Vmm.Tidy.filled_entry (hm : v'.mem u = setEntry v.mem t i e u)
    (ht : v.tableAt root q = some t) (hq : q.length ≤ 3) (hlow : LowPath r)
    (hlen : r.length ≤ 3) (hp : r ≠ p) (hne : r ≠ q) (hat : v.tableAt root r = some u) :
    ∃ j, v'.mem u j ≠ 0 := by
  obtain ⟨j, hj⟩ := h.filled r u hlow hlen hp hat
  have hut : u ≠ t := by
    rintro rfl
    exact hne (h.tree r q u hlen hq hat ht)
  refine ⟨j, ?_⟩
  rw [hm, setEntry_node hut]
  exact hj

theorem Vmm.Tidy.taken_linked (hl : Linked A root v v' p t i f e) (hlow : LowPath (p ++ [i]))
    (u : BitVec 64) : u ∈ heldTables v'.trace ↔
      ∃ q, LowPath q ∧ q.length ≤ 3 ∧ v'.tableAt root q = some u := by
  have hs := hl.short
  rw [hl.heldTables_eq, List.mem_cons, h.taken]
  constructor
  · rintro (rfl | ⟨q, hq, hlen, hu⟩)
    · exact ⟨p ++ [i], hlow, by simp; omega, hl.tableAt_self h.tree h.held⟩
    · refine ⟨q, hq, hlen, ?_⟩
      rw [hl.tableAt h.tree h.held hlen, if_neg]
      · exact hu
      · rintro rfl
        rw [hl.tableAt_old] at hu
        cases hu
  · rintro ⟨q, hq, hlen, hu⟩
    rw [hl.tableAt h.tree h.held hlen] at hu
    split at hu
    · cases hu
      exact .inl rfl
    · exact .inr ⟨q, hq, hlen, hu⟩

theorem Vmm.Tidy.linked (hl : Linked A root v v' p t i f e) (hlow : LowPath (p ++ [i])) :
    v'.Tidy A root (p ++ [i]) := by
  have hat : ∀ {q}, q.length ≤ 3 →
      v'.tableAt root q = if q = p ++ [i] then some f else v.tableAt root q :=
    fun hq => hl.tableAt h.tree h.held hq
  have hnot : f ∉ heldTables v.trace := by
    intro hf
    obtain ⟨q, _, hq, hqf⟩ := (h.taken f).1 hf
    exact hl.not_table h.held ⟨q, hq, hqf⟩
  have hold : ∀ {q u}, q.length ≤ 3 → v.tableAt root q = some u →
      v'.mem u = setEntry v.mem t i e u := by
    intro q u hlen hu
    have huf : u ≠ f := by
      rintro rfl
      exact hl.not_table h.held ⟨q, hlen, hu⟩
    rw [hl.mem, Function.update_of_ne huf]
  have hentry : e ≠ 0 := ne_zero_of_next hl.entry
  refine ⟨hl.tree h.tree h.held, hl.tablesHeld h.tree h.held, h.taken_linked hl hlow, ?_, ?_, ?_⟩
  · rw [hl.heldTables_eq]
    exact List.nodup_cons.2 ⟨hnot, h.nodup⟩
  · intro q u j hq hlen hu hj
    rw [hat hlen] at hu
    split at hu
    · cases hu
      rw [hl.mem, Function.update_self]
    · refine h.clean_entry (hold hlen hu) (fun hno => ?_) hq hlen hu hj
      rw [hl.entry] at hno
      cases hno
  · intro q u hq hlen hne hu
    rw [hat hlen, if_neg hne] at hu
    by_cases hqp : q = p
    · subst hqp
      rw [hl.table] at hu
      cases hu
      refine ⟨i, ?_⟩
      rw [hold hlen hl.table, setEntry_self]
      exact hentry
    · exact h.filled_entry (hold hlen hu) hl.table (Nat.le_of_lt hl.short) hq hlen hqp hqp hu

theorem Vmm.Tidy.found (hat : v.tableAt root p = some t) (hc : pteNext (v.mem t i) = some c)
    (r : List (Fin 512)) : v.Tidy A root r := by
  refine h.full (fun u hu => ?_) r
  rw [hat] at hu
  cases hu
  exact ⟨i, ne_zero_of_next hc⟩

theorem Vmm.Tidy.taken_unlinked (hu : Unlinked A root v v' q t i c) (u : BitVec 64) :
    u ∈ heldTables v'.trace ↔
      ∃ r, LowPath r ∧ r.length ≤ 3 ∧ v'.tableAt root r = some u := by
  have hs := hu.short
  rw [hu.heldTables_eq, h.nodup.mem_erase_iff, h.taken]
  constructor
  · rintro ⟨hne, r, hr, hlen, hat⟩
    refine ⟨r, hr, hlen, ?_⟩
    rw [hu.tableAt h.tree hlen, if_neg]
    · exact hat
    · rintro rfl
      rw [hu.child] at hat
      cases hat
      exact hne rfl
  · rintro ⟨r, hr, hlen, hat⟩
    rw [hu.tableAt h.tree hlen] at hat
    split at hat
    · cases hat
    · next hne =>
      refine ⟨?_, r, hr, hlen, hat⟩
      rintro rfl
      exact hne (h.tree r (q ++ [i]) u hlen (by simp; omega) hat hu.child)

theorem Vmm.Tidy.unlinked (hu : Unlinked A root v v' q t i c) (hp : p = q ++ [i]) :
    v'.Tidy A root q := by
  subst hp
  have hkept : ∀ {r u}, r.length ≤ 3 → v'.tableAt root r = some u →
      r ≠ q ++ [i] ∧ v.tableAt root r = some u := by
    intro r u hlen hat
    rw [hu.tableAt h.tree hlen] at hat
    split at hat
    · cases hat
    · exact ⟨‹_›, hat⟩
  refine ⟨hu.tree h.tree, hu.tablesHeld h.tree h.held, h.taken_unlinked hu, ?_, ?_, ?_⟩
  · rw [hu.heldTables_eq]
    exact h.nodup.erase c
  · intro r u j hr hlen hat hj
    exact h.clean_entry (congrFun hu.mem u) (fun _ => rfl) hr hlen (hkept hlen hat).2 hj
  · intro r u hr hlen hne hat
    obtain ⟨hold, hat⟩ := hkept hlen hat
    exact h.filled_entry (congrFun hu.mem u) hu.table (Nat.le_of_lt hu.short) hr hlen hold hne hat

/-- A leaf entry is set or cleared in the page table at `q`. -/
theorem Vmm.Tidy.leafSet (hl : LeafSet root v v' q t i e) (hp : p = q ∨ p = [])
    (he : pteNext e = none → e = 0) : v'.Tidy A root q := by
  have hat : ∀ {r}, r.length ≤ 3 → v'.tableAt root r = v.tableAt root r :=
    fun hr => hl.tableAt h.tree hr
  refine ⟨hl.tree h.tree, hl.tablesHeld h.tree h.held, fun u => ?_, ?_, ?_, ?_⟩
  · rw [hl.trace, h.taken]
    constructor
    · rintro ⟨r, hr, hlen, hu⟩
      exact ⟨r, hr, hlen, (hat hlen).trans hu⟩
    · rintro ⟨r, hr, hlen, hu⟩
      exact ⟨r, hr, hlen, (hat hlen).symm.trans hu⟩
  · rw [hl.trace]
    exact h.nodup
  · intro r u j hr hlen hu hj
    exact h.clean_entry (congrFun hl.mem u) he hr hlen ((hat hlen).symm.trans hu) hj
  · intro r u hr hlen hne hu
    have hrp : r ≠ p := by
      rcases hp with rfl | rfl
      · exact hne
      · rintro rfl
        obtain ⟨_, _, hr, _⟩ := hr
        cases hr
    exact h.filled_entry (congrFun hl.mem u) hl.table (Nat.le_of_eq hl.deep) hr hlen hrp
      hne ((hat hlen).symm.trans hu)

end Tidy

/-- On its way down `map_page` leaves at most the last table empty. -/
theorem Vmm.Tidy.descend (h : v.Tidy A root q) (ht : v.tableAt root q = some t)
    (hlen : q.length + p.length ≤ 3) (hlow : LowPath (q ++ p))
    (hd : descend A (tableFlags flags) t p v = .ok (some pt, v')) :
    v'.Tidy A root (q ++ p) ∧ v'.tableAt root (q ++ p) = some pt := by
  induction p generalizing q t v with
  | nil =>
    cases hd
    rw [List.append_nil]
    exact ⟨h, ht⟩
  | cons i p ih =>
    rw [List.length_cons] at hlen
    have hstep : (q ++ [i]).length + p.length ≤ 3 := by
      rw [List.length_append, List.length_singleton]
      omega
    rw [List.append_cons] at hlow ⊢
    obtain ⟨⟨r, w⟩, hget, hrest⟩ := bind_ok hd
    obtain ⟨hl, _, hf⟩ := tableFlags_spec flags
    rcases getOrAllocateNextLevel_cases h.held ht (by omega) hl (.inr hf) hget with
      ⟨c, rfl, hc, rfl⟩ | ⟨rfl, _, hr⟩ | ⟨f, e, rfl, hlink⟩
    · exact ih (h.found ht hc _) ((follow_step ht).trans hc) hstep hlow hrest
    · cases hrest
    · have hlow' : LowPath (q ++ [i]) := by
        cases p with
        | nil => rwa [List.append_nil] at hlow
        | cons j p => exact (List.append_cons q i (j :: p) ▸ hlow).front
      exact ih (h.linked hlink hlow') (hlink.tableAt_self h.tree h.held) hstep hlow hrest

theorem Vmm.Tidy.map (h : v.Tidy A root []) (hlow : (pml4Index virt).val < 256)
    (hall : AllOrNone A root v virt) (hm : mapPage A v root virt phys flags = .ok (r, v')) :
    v'.Tidy A root [] := by
  have hlen : ([] : List (Fin 512)).length + (tablePath virt).length ≤ 3 := Nat.le_refl 3
  rw [mapPage_eq] at hm
  obtain ⟨⟨o, w⟩, hd, hm⟩ := bind_ok hm
  cases o with
  | none =>
    cases hm
    exact h.refused (descend_refused h.tree h.held rfl hlen hall hd)
  | some pt =>
    cases hm
    obtain ⟨hw, hat⟩ := h.descend rfl hlen (lowPath_tablePath hlow) hd
    rw [List.nil_append] at hw hat
    have hpres := hasFlag_present_or (pageBase phys) flags
    have hnext : pteNext (pageBase phys ||| flags ||| ptePresent) = some _ := if_pos hpres
    have hset : LeafSet root w (w.write pt (ptIndex (pageBase virt))
        (pageBase phys ||| flags ||| ptePresent)) (tablePath virt) pt (ptIndex (pageBase virt))
        (pageBase phys ||| flags ||| ptePresent) := ⟨hat, rfl, rfl, rfl, rfl⟩
    have hleaf := hw.leafSet hset (.inl rfl) fun hno => by
      rw [hnext] at hno
      cases hno
    refine hleaf.full (fun t ht => ?_) []
    rw [hset.tableAt hw.tree (Nat.le_of_eq hset.deep), hat] at ht
    cases ht
    refine ⟨ptIndex (pageBase virt), ?_⟩
    rw [hset.mem, setEntry_self]
    exact ne_zero_of_next hnext

theorem Vmm.Tidy.level (h : v.Tidy A root (p ++ [i])) (ht : v.tableAt root p = some t)
    (hp : p.length < 3) (hc : v.tableAt root (p ++ [i]) = some c)
    (hlow : p = [] → i.val < 256) :
    (isTableEmpty v c = true → ((v.write t i 0).ppFree A c).Tidy A root p) ∧
      (isTableEmpty v c = false → v.Tidy A root []) := by
  constructor
  · intro he
    have hu : Unlinked A root v ((v.write t i 0).ppFree A c) p t i c :=
      ⟨ht, hp, (follow_step ht).symm.trans hc, isTableEmpty_iff.1 he, hlow, rfl, rfl, rfl⟩
    exact h.unlinked hu rfl
  · intro he
    refine h.full (fun u hu => ?_) []
    rw [hc] at hu
    cases hu
    by_contra hno
    rw [not_exists] at hno
    rw [isTableEmpty_iff.2 fun i => not_not.1 (hno i)] at he
    cases he

/-- The cascade of `unmap_page` takes out every table its page leaves empty. -/
theorem Vmm.Tidy.freeEmptyTables (h : v.Tidy A root []) (hlow : (pml4Index virt).val < 256)
    (h₁ : v.tableAt root [pml4Index virt] = some pdpt)
    (h₂ : v.tableAt root [pml4Index virt, pdptIndex virt] = some pd)
    (h₃ : v.tableAt root (tablePath virt) = some pt) :
    (AdaOS.freeEmptyTables A v root pdpt pd pt virt).Tidy A root [] := by
  have e₁ := pteGetAddr_of_next ((follow_step (p := []) rfl).symm.trans h₁)
  have e₂ := pteGetAddr_of_next ((follow_step h₁).symm.trans h₂)
  have e₃ := pteGetAddr_of_next ((follow_step h₂).symm.trans h₃)
  have hset : LeafSet root v (v.write pt (ptIndex virt) 0) (tablePath virt) pt (ptIndex virt) 0 :=
    ⟨h₃, rfl, rfl, rfl, rfl⟩
  simp only [AdaOS.freeEmptyTables, e₁, e₂, e₃]
  have ht := h.leafSet hset (.inr rfl) fun _ => rfl
  have k₃ := (hset.tableAt (q := tablePath virt) h.tree (Nat.le_refl 3)).trans h₃
  have k₂ := (hset.tableAt h.tree (by simp)).trans h₂
  have k₁ := (hset.tableAt h.tree (by simp)).trans h₁
  generalize v.write pt (ptIndex virt) 0 = v₁ at ht k₁ k₂ k₃ ⊢
  obtain ⟨hgone, hstay⟩ := ht.level (p := [_, _]) k₂ (by simp) k₃ (by simp)
  cases he : isTableEmpty v₁ pt with
  | false => exact hstay he
  | true =>
    have keep₂ := (Shrinks.refl.level (A := A) ht.tree k₂ (by simp) k₃ he (by simp)).2
    have ht₂ := hgone he
    rw [if_pos rfl]
    replace k₂ := (keep₂ [_, _] (by simp)).trans k₂
    replace k₁ := (keep₂ [_] (by simp)).trans k₁
    generalize (v₁.write pd (pdIndex virt) 0).ppFree A pt = v₂ at ht₂ k₁ k₂ ⊢
    obtain ⟨hgone₂, hstay₂⟩ := ht₂.level (p := [_]) k₁ (by simp) k₂ (by simp)
    cases he₂ : isTableEmpty v₂ pd with
    | false => exact hstay₂ he₂
    | true =>
      have keep₃ := (Shrinks.refl.level (A := A) ht₂.tree k₁ (by simp) k₂ he₂ (by simp)).2
      have ht₃ := hgone₂ he₂
      rw [if_pos rfl]
      replace k₁ := (keep₃ [_] (by simp)).trans k₁
      generalize (v₂.write pdpt (pdptIndex virt) 0).ppFree A pd = v₃ at ht₃ k₁ ⊢
      obtain ⟨hgone₃, hstay₃⟩ := ht₃.level (p := []) rfl (by simp) k₁ fun _ => hlow
      cases he₃ : isTableEmpty v₃ pdpt with
      | false => exact hstay₃ he₃
      | true =>
        rw [if_pos rfl, if_neg (Nat.not_le_of_lt hlow)]
        exact hgone₃ he₃

theorem Vmm.Tidy.unmap (h : v.Tidy A root []) (hlow : (pml4Index virt).val < 256)
    (hm : unmapPage A v root virt = (r, v')) : v'.Tidy A root [] := by
  by_cases ha : virt.toNat % pageSize = 0
  · obtain ⟨rfl, _⟩ | ⟨pdpt, pd, pt, h₁, h₂, h₃, heq⟩ := unmapPage_walk ha hm
    · exact h
    · exact heq ▸ h.freeEmptyTables hlow h₁ h₂ h₃
  · rw [unmapPage_misaligned ha] at hm
    cases hm
    exact h

theorem Vmm.LowerEmpty.no_table (h : v.LowerEmpty A root) (hq : LowPath p) :
    v.tableAt root p = none := by
  obtain ⟨i, r, rfl, hi⟩ := hq
  rw [Vmm.tableAt, follow, h.zero i hi]
  rfl

theorem Vmm.LowerEmpty.tidy (h : v.LowerEmpty A root) : v.Tidy A root [] := by
  refine ⟨h.tree, h.held, fun t => ?_, ?_, ?_, ?_⟩
  · rw [h.trace]
    constructor
    · intro ht
      cases ht
    · rintro ⟨q, hq, _, hat⟩
      rw [h.no_table hq] at hat
      cases hat
  · rw [h.trace]
    exact List.nodup_nil
  · intro q t i hq _ hat hi
    cases q with
    | nil =>
      cases hat
      obtain ⟨j, r, he, hj⟩ := hq
      cases he
      exact h.zero i hj
    | cons j q =>
      have hlow : LowPath (j :: q) := by
        obtain ⟨k, r, he, hk⟩ := hq
        cases he
        exact ⟨_, _, rfl, hk⟩
      rw [h.no_table hlow] at hat
      cases hat
  · intro q t hq _ _ hat
    rw [h.no_table hq] at hat
    cases hat

theorem LowerRun.tidy (hr : LowerRun A root (AllOrNone A root) v S v')
    (h : v.LowerEmpty A root) : v'.Tidy A root [] := by
  induction hr with
  | start => exact h.tidy
  | map _ hlow hall hm ih => exact ih.map hlow hall hm
  | unmap _ hlow hm ih => exact ih.unmap hlow hm

theorem unmapPage_aligned (ha : virt.toNat % pageSize = 0)
    (h : unmapPage A v root virt = (r, v')) : r = true := by
  rw [unmapPage, if_neg (not_not_intro ha)] at h
  cases h₁ : getNextLevel v root (pml4Index virt) with
  | none =>
    simp only [h₁] at h
    exact (congrArg Prod.fst h).symm
  | some pdpt =>
    cases h₂ : getNextLevel v pdpt (pdptIndex virt) with
    | none =>
      simp only [h₁, h₂] at h
      exact (congrArg Prod.fst h).symm
    | some pd =>
      cases h₃ : getNextLevel v pd (pdIndex virt) with
      | none =>
        simp only [h₁, h₂, h₃] at h
        exact (congrArg Prod.fst h).symm
      | some pt =>
        simp only [h₁, h₂, h₃] at h
        split at h
        · exact (congrArg Prod.fst h).symm
        · exact (congrArg Prod.fst h).symm

/-- The pages a run has mapped and not unmapped since are those of the lower half that the
hardware finds mapped. -/
theorem LowerRun.mapped (hr : LowerRun A root may v S v') (h : v.LowerEmpty A root) :
    (v'.Tree root ∧ v'.TablesHeld A root) ∧ ∀ virt : BitVec 64, (pml4Index virt).val < 256 →
      ((v'.translate root virt).isSome ↔ pageNumber virt ∈ S) := by
  induction hr with
  | start =>
    refine ⟨⟨h.tree, h.held⟩, fun virt hlow => ?_⟩
    rw [Vmm.translate, Vmm.leafAt_none (h.no_table (lowPath_tablePath hlow))]
    simp
  | @map S w virt phys flags r w' hr hlow _ hm ih =>
    obtain ⟨⟨hv, hh⟩, ih⟩ := ih
    rcases mapPage_cases hv hh hm with ⟨rfl, hg⟩ | ⟨rfl, u, pt, hg, hset⟩
    · refine ⟨hg.inv hv hh, fun x hx => ?_⟩
      rw [hg.translate hv hh]
      exact ih x hx
    · obtain ⟨hu, hhu⟩ := hg.inv hv hh
      refine ⟨⟨hset.tree hu, hset.tablesHeld hu hhu⟩, fun x hx => ?_⟩
      rw [if_pos rfl, Set.mem_insert_iff]
      by_cases hsame : pageNumber x = pageNumber virt
      · rw [Vmm.translate_congr hsame, hset.translate_self hu, leafOf, if_pos]
        · simp [hsame]
        · exact hasFlag_present_or _ _
      · rw [hset.translate_of_ne hu hsame, hg.translate hv hh, ih x hx]
        simp [hsame]
  | @unmap S w virt r w' hr hlow hm ih =>
    obtain ⟨⟨hv, hh⟩, ih⟩ := ih
    by_cases ha : virt.toNat % pageSize = 0
    · obtain rfl := unmapPage_aligned ha hm
      obtain ⟨hnone, hkeep, _⟩ := unmapPage_spec hv ha hm
      refine ⟨?_, fun x hx => ?_⟩
      · rcases unmapPage_cases hv ha hm with ⟨rfl, _⟩ | ⟨u, pt, freed, hset, hs⟩
        · exact ⟨hv, hh⟩
        · exact ⟨hs.tree (hset.tree hv),
            hs.tablesHeld (hset.tree hv) (hset.tablesHeld hv hh)⟩
      · rw [if_pos rfl, Set.mem_sdiff, Set.mem_singleton_iff]
        by_cases hsame : pageNumber x = pageNumber virt
        · rw [Vmm.translate_congr hsame, hnone]
          simp [hsame]
        · rw [hkeep x hsame, ih x hx]
          simp [hsame]
    · rw [unmapPage_misaligned ha] at hm
      cases hm
      exact ⟨⟨hv, hh⟩, ih⟩

theorem exists_virt (i j k l : Fin 512) : ∃ virt, tablePath virt = [i, j, k] ∧
    ptIndex virt = l := by
  refine ⟨BitVec.ofNat 64 (i * 2 ^ 39 + j * 2 ^ 30 + k * 2 ^ 21 + l * 2 ^ 12), ?_⟩
  have hi := i.isLt
  have hj := j.isLt
  have hk := k.isLt
  have hl := l.isLt
  have hsmall : i.val * 2 ^ 39 + j * 2 ^ 30 + k * 2 ^ 21 + l * 2 ^ 12 < 2 ^ 64 := by omega
  simp only [tablePath, pml4Index, pdptIndex, pdIndex, ptIndex, List.cons.injEq, Fin.ext_iff,
    tableIndex_val, BitVec.toNat_ofNat, Nat.mod_eq_of_lt hsmall, and_true]
  omega

theorem Vmm.Tidy.deep (h : v.Tidy A root []) (hp : LowPath p) (hlen : p.length + n = 3)
    (hat : v.tableAt root p = some t) :
    ∃ q pt, LowPath q ∧ q.length = 3 ∧ v.tableAt root q = some pt := by
  induction n generalizing p t with
  | zero => exact ⟨p, t, hp, hlen, hat⟩
  | succ n ih =>
    have hne : p ≠ [] := by
      rintro rfl
      obtain ⟨_, _, he, _⟩ := hp
      cases he
    obtain ⟨i, hi⟩ := h.filled p t hp (by omega) hne hat
    cases hc : pteNext (v.mem t i) with
    | none => exact (hi (h.clean p t i hp.append (by omega) hat hc)).elim
    | some c =>
      have hchild : v.tableAt root (p ++ [i]) = some c := (follow_step hat).trans hc
      exact ih (p := p ++ [i]) hp.append (by simp; omega) hchild

/-- A tidy lower half without pages has no tables. -/
theorem Vmm.Tidy.no_table (h : v.Tidy A root [])
    (hnone : ∀ virt : BitVec 64, (pml4Index virt).val < 256 → v.translate root virt = none)
    (hp : LowPath p) (hlen : p.length ≤ 3) : v.tableAt root p = none := by
  cases hat : v.tableAt root p with
  | none => rfl
  | some t =>
    obtain ⟨q, pt, hq, hthree, hpt⟩ := h.deep (n := 3 - p.length) hp (by omega) hat
    obtain ⟨i, r, rfl, hi⟩ := hq
    obtain ⟨j, k, rfl⟩ := List.length_eq_two.1 (Nat.succ.inj hthree)
    obtain ⟨l, hl⟩ := h.filled _ pt ⟨i, _, rfl, hi⟩ (Nat.le_of_eq hthree) (fun he => nomatch he) hpt
    obtain ⟨virt, hpath, hindex⟩ := exists_virt i j k l
    have hlow : (pml4Index virt).val < 256 := by
      rw [tablePath, List.cons.injEq] at hpath
      rw [hpath.1]
      exact hi
    have hleaf := hnone virt hlow
    rw [Vmm.translate, hpath, Vmm.leafAt_eq hpt, hindex, leafOf] at hleaf
    have hfree : pteNext (v.mem pt l) = none := by
      rw [pteNext]
      split
      · next hpres =>
        rw [if_pos hpres] at hleaf
        cases hleaf
      · rfl
    exact (hl (h.clean _ pt l ⟨i, _, rfl, hi⟩ (Nat.le_of_eq hthree) hpt hfree)).elim

/-- In runs in which no `map_page` is refused a page after it has taken one, unmapping every page
gives back every table and empties the lower half of the top level. -/
theorem lowerRun_reclaims (h : v.LowerEmpty A root)
    (hr : LowerRun A root (AllOrNone A root) v ∅ v') :
    heldTables v'.trace = [] ∧ ∀ i : Fin 512, i.val < 256 → v'.mem root i = 0 := by
  have ht := hr.tidy h
  have hnone : ∀ virt : BitVec 64, (pml4Index virt).val < 256 → v'.translate root virt = none := by
    intro virt hlow
    cases hx : v'.translate root virt with
    | none => rfl
    | some x =>
      have hmem := (hr.mapped h).2 virt hlow
      rw [hx] at hmem
      exact (hmem.1 rfl).elim
  constructor
  · apply List.eq_nil_iff_forall_not_mem.2
    intro t hmem
    obtain ⟨q, hq, hlen, hat⟩ := (ht.taken t).1 hmem
    rw [ht.no_table hnone hq hlen] at hat
    cases hat
  · intro i hi
    have hlow : LowPath [i] := ⟨i, [], rfl, hi⟩
    have hat := ht.no_table hnone hlow (Nat.le_add_left 1 2)
    exact ht.clean [] root i hlow (Nat.zero_le 3) rfl ((follow_step (p := []) rfl).symm.trans hat)

theorem Vmm.blank_lowerEmpty {s : σ} (h : root ∈ A.held s) :
    Vmm.LowerEmpty A (⟨fun _ _ => 0, s, []⟩ : Vmm σ) root := by
  obtain ⟨htree, hheld⟩ := Vmm.blank_tree (A := A) h
  exact ⟨htree, hheld, fun _ _ => rfl, rfl⟩

theorem lowerRun_reclaims_oneChunk : ∃ v w v' : Vmm (OwnedPmm oneChunk),
    mapPage (pmmFrames oneChunk_sound) v 0x1002000 0x400000 0x5000 pteWritable = .ok (true, w) ∧
    unmapPage (pmmFrames oneChunk_sound) w 0x1002000 0x400000 = (true, v') ∧
    LowerRun (pmmFrames oneChunk_sound) 0x1002000
      (AllOrNone (pmmFrames oneChunk_sound) 0x1002000) v ∅ v' ∧
    heldTables v'.trace = [] ∧ ∀ i : Fin 512, i.val < 256 → v'.mem 0x1002000 i = 0 := by
  obtain ⟨x, hx, hl⟩ := oneChunk_frames
  generalize hv : (⟨fun _ _ => 0, x, []⟩ : Vmm (OwnedPmm oneChunk)) = v
  have hempty : v.LowerEmpty (pmmFrames oneChunk_sound) 0x1002000 :=
    hv ▸ Vmm.blank_lowerEmpty hx
  have hframes : v.frames = x := by rw [← hv]
  have hall : AllOrNone (pmmFrames oneChunk_sound) 0x1002000 v 0x400000 := by
    intro _
    rw [hframes]
    exact hl.mono ((v.missing_le _ _).trans (by decide))
  obtain ⟨w, hm, _⟩ := mapPage_lasts (A := pmmFrames oneChunk_sound) (v := v) (n := 0)
    (hframes ▸ hl.mono (by decide)) 0x1002000 0x400000 0x5000 pteWritable
  have hrun := LowerRun.start.map (by decide) hall hm
  obtain ⟨r, v', hu⟩ : ∃ r v', unmapPage (pmmFrames oneChunk_sound) w 0x1002000 0x400000 =
      (r, v') := ⟨_, _, rfl⟩
  obtain rfl := unmapPage_aligned (by decide) hu
  have hrun' := hrun.unmap (by decide) hu
  rw [if_pos rfl, if_pos rfl, LawfulSingleton.insert_empty_eq, sdiff_self] at hrun'
  exact ⟨v, w, v', hm, hu, hrun', lowerRun_reclaims hempty hrun'⟩

/-- A pool of two pages, the first of them the top level of a pagemap. -/
def twoFrames : List Frame := [⟨0x1000, by decide, by decide⟩, ⟨0x2000, by decide, by decide⟩]

/-- The page directory pointer table that `map_page` took stays when there is no second page. -/
theorem refusedTable_kept : ∃ (A : FrameAllocator (PoolState twoFrames))
    (v v' : Vmm (PoolState twoFrames)), v.LowerEmpty A 0x1000 ∧
    LowerRun A 0x1000 (fun _ _ => True) v ∅ v' ∧
    ¬(heldTables v'.trace = [] ∧ ∀ i : Fin 512, i.val < 256 → v'.mem 0x1000 i = 0) := by
  have hempty : Vmm.LowerEmpty (framePool twoFrames (by decide))
    (⟨fun _ _ => 0, ⟨{0x1000}, by decide⟩, []⟩ : Vmm (PoolState twoFrames)) 0x1000 :=
    Vmm.blank_lowerEmpty (by decide)
  obtain ⟨v', hm, ht⟩ : ∃ v', mapPage (framePool twoFrames (by decide))
      (⟨fun _ _ => 0, ⟨{0x1000}, by decide⟩, []⟩ : Vmm (PoolState twoFrames)) 0x1000 0x400000
      0x5000 pteWritable = .ok (false, v') ∧ heldTables v'.trace = [0x2000] := ⟨_, rfl, rfl⟩
  have hrun : LowerRun _ 0x1000 (fun _ _ => True) _ _ v' :=
    LowerRun.start.map (by decide) trivial hm
  refine ⟨_, _, v', hempty, hrun, fun h => ?_⟩
  rw [ht] at h
  cases h.1

end AdaOS
