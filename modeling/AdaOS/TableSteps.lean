import AdaOS.Radix
import AdaOS.Vmm

namespace AdaOS
set_option autoImplicit true
open Radix

variable {σ : Type} {A : FrameAllocator σ} {v v' : Vmm σ} {root : BitVec 64}

def pteNext (entry : BitVec 64) : Option (BitVec 64) :=
  if hasFlag entry ptePresent then some (pteGetAddr entry) else none

/-- The table that a path of indices from the top level leads to. -/
def Vmm.tableAt (v : Vmm σ) (root : BitVec 64) (p : List (Fin 512)) : Option (BitVec 64) :=
  follow pteNext v.mem root p

/-- `t` is the top level or a PDPT, PD or PT of the tree. -/
def Vmm.IsTable (v : Vmm σ) (root t : BitVec 64) : Prop := IsNode pteNext v.mem root 3 t

/-- A four-level tree in which no two paths lead to one table. -/
def Vmm.Tree (v : Vmm σ) (root : BitVec 64) : Prop := Separated pteNext v.mem root 3

/-- The tables of the tree are frames in use. -/
def Vmm.TablesHeld (A : FrameAllocator σ) (v : Vmm σ) (root : BitVec 64) : Prop :=
  ∀ t, v.IsTable root t → t ∈ A.held v.frames

/-- What a leaf entry says: a frame and the flags, or nothing when it is not present. -/
def leafOf (entry : BitVec 64) : Option (BitVec 64 × BitVec 64) :=
  if hasFlag entry ptePresent then some (pteGetAddr entry, pteGetFlags entry) else none

def tablePath (virt : BitVec 64) : List (Fin 512) :=
  [pml4Index virt, pdptIndex virt, pdIndex virt]

theorem path_ne (h : pageNumber w ≠ pageNumber virt) :
    tablePath w ≠ tablePath virt ∨ ptIndex w ≠ ptIndex virt := by
  by_contra hsame
  rw [not_or, not_not, not_not] at hsame
  obtain ⟨hpath, hpt⟩ := hsame
  rw [tablePath, tablePath, List.cons.injEq, List.cons.injEq, List.cons.injEq] at hpath
  exact h (pageNumber_eq_iff.2 ⟨hpath.1, hpath.2.1, hpath.2.2.1, hpt⟩)

theorem tablePath_eq (h : x.toNat / 2 ^ 21 = y.toNat / 2 ^ 21) : tablePath x = tablePath y := by
  simp only [tablePath, pml4Index, pdptIndex, pdIndex, List.cons.injEq, Fin.ext_iff,
    tableIndex_val, and_true]
  omega

/-- Entry `j` of the page table that a path of three indices leads to. -/
def Vmm.leafAt (v : Vmm σ) (root : BitVec 64) (p : List (Fin 512)) (j : Fin 512) :
    Option (BitVec 64 × BitVec 64) :=
  (v.tableAt root p).bind fun pt => leafOf (v.mem pt j)

/-- The walk the hardware makes for a virtual address. -/
def Vmm.translate (v : Vmm σ) (root virt : BitVec 64) : Option (BitVec 64 × BitVec 64) :=
  v.leafAt root (tablePath virt) (ptIndex virt)

/-- `pp_alloc` refused a page for a table. -/
structure Refused (A : FrameAllocator σ) (v v' : Vmm σ) : Prop where
  mem : v'.mem = v.mem
  held : A.held v'.frames = A.held v.frames
  trace : v'.trace = .refused :: v.trace

/-- `pp_alloc` took the page `f` and cleared it. -/
structure Cleared (A : FrameAllocator σ) (v v' : Vmm σ) (f : BitVec 64) : Prop where
  fresh : f ∉ A.held v.frames
  held : A.held v'.frames = insert f (A.held v.frames)
  mem : v'.mem = Function.update v.mem f fun _ => 0
  trace : v'.trace = .taken f :: v.trace

/-- A new empty table `f` was hung into the free entry `i` of the table `t`. -/
structure Linked (A : FrameAllocator σ) (root : BitVec 64) (v v' : Vmm σ) (p : List (Fin 512))
    (t : BitVec 64) (i : Fin 512) (f : BitVec 64) (e : BitVec 64) : Prop where
  table : v.tableAt root p = some t
  short : p.length < 3
  free : pteNext (v.mem t i) = none
  entry : pteNext e = some f
  access : hasFlag e pteWritable = true ∧ hasFlag e pteNx = false
  fresh : f ∉ A.held v.frames
  mem : v'.mem = Function.update (setEntry v.mem t i e) f fun _ => 0
  held : A.held v'.frames = insert f (A.held v.frames)
  trace : v'.trace = .taken f :: v.trace

/-- The empty table `c` was taken out of entry `i` of the table `t` and given back. -/
structure Unlinked (A : FrameAllocator σ) (root : BitVec 64) (v v' : Vmm σ)
    (p : List (Fin 512)) (t : BitVec 64) (i : Fin 512) (c : BitVec 64) : Prop where
  table : v.tableAt root p = some t
  short : p.length < 3
  entry : pteNext (v.mem t i) = some c
  empty : ∀ j, v.mem c j = 0
  lower : p = [] → i.val < 256
  mem : v'.mem = setEntry v.mem t i 0
  frames : v'.frames = A.free v.frames c
  trace : v'.trace = .given c :: v.trace

/-- Entry `i` of the page table `t` was set. -/
structure LeafSet (root : BitVec 64) (v v' : Vmm σ) (p : List (Fin 512)) (t : BitVec 64)
    (i : Fin 512) (e : BitVec 64) : Prop where
  table : v.tableAt root p = some t
  deep : p.length = 3
  mem : v'.mem = setEntry v.mem t i e
  frames : v'.frames = v.frames
  trace : v'.trace = v.trace

theorem pteNext_zero : pteNext 0 = none := rfl

theorem Vmm.ppAlloc_cases (h : v.ppAlloc A = .ok (r, v')) :
    (r = none ∧ Refused A v v') ∨ ∃ f, r = some f ∧ Cleared A v v' f.addr := by
  obtain ⟨⟨x, s⟩, ha, h⟩ := bind_ok h
  cases x with
  | none =>
    cases h
    exact .inl ⟨rfl, rfl, A.alloc_none _ _ ha, rfl⟩
  | some f =>
    cases h
    obtain ⟨hfresh, hheld⟩ := A.alloc_some _ _ _ ha
    exact .inr ⟨f, rfl, hfresh, hheld, rfl, rfl⟩

theorem Vmm.leafAt_eq (h : v.tableAt root p = some t) :
    v.leafAt root p j = leafOf (v.mem t j) := by
  rw [Vmm.leafAt, h]
  rfl

theorem Vmm.leafAt_none (h : v.tableAt root p = none) : v.leafAt root p j = none := by
  rw [Vmm.leafAt, h]
  rfl

theorem Vmm.translate_congr (h : pageNumber virt = pageNumber virt') :
    v.translate root virt = v.translate root virt' := by
  obtain ⟨h₁, h₂, h₃, h₄⟩ := pageNumber_eq_iff.1 h
  rw [Vmm.translate, Vmm.translate, tablePath, tablePath, h₁, h₂, h₃, h₄]

theorem Vmm.tree_of_empty (hz : ∀ i, v.mem root i = 0) :
    v.Tree root ∧ ∀ t, v.IsTable root t ↔ t = root := by
  have hnone : ∀ i, pteNext (v.mem root i) = none := fun i => by rw [hz]; rfl
  constructor
  · intro p q t _ _ hp hq
    rw [(follow_empty hnone hp).1, (follow_empty hnone hq).1]
  · intro t
    constructor
    · rintro ⟨q, _, hq⟩
      exact (follow_empty hnone hq).2
    · rintro rfl
      exact .root

theorem Vmm.blank_tree {s : σ} (h : root ∈ A.held s) :
    Vmm.Tree (σ := σ) ⟨fun _ _ => 0, s, []⟩ root ∧
      Vmm.TablesHeld A ⟨fun _ _ => 0, s, []⟩ root := by
  obtain ⟨htree, htable⟩ := Vmm.tree_of_empty (v := ⟨fun _ _ => 0, s, []⟩) fun _ => rfl
  refine ⟨htree, fun t ht => ?_⟩
  rw [(htable t).1 ht]
  exact h

theorem Refused.tableAt (h : Refused A v v') : v'.tableAt root p = v.tableAt root p := by
  rw [Vmm.tableAt, Vmm.tableAt, h.mem]

theorem Refused.leafAt (h : Refused A v v') : v'.leafAt root p j = v.leafAt root p j := by
  rw [Vmm.leafAt, Vmm.leafAt, h.tableAt, h.mem]

theorem Refused.isTable (h : Refused A v v') : v'.IsTable root t ↔ v.IsTable root t := by
  rw [Vmm.IsTable, Vmm.IsTable, h.mem]

theorem Refused.tree (h : Refused A v v') (hv : v.Tree root) : v'.Tree root := by
  rw [Vmm.Tree, h.mem]
  exact hv

theorem Refused.tablesHeld (h : Refused A v v') (hv : v.TablesHeld A root) :
    v'.TablesHeld A root := by
  intro t ht
  rw [h.held]
  exact hv t (h.isTable.1 ht)

theorem Linked.not_table (h : Linked A root v v' p t i f e) (hh : v.TablesHeld A root) :
    ¬v.IsTable root f := fun hf => h.fresh (hh f hf)

theorem Linked.mem_of_ne (h : Linked A root v v' p t i f e) (hh : v.TablesHeld A root)
    (hu : v.IsTable root u) (hne : u ≠ t ∨ j ≠ i) : v'.mem u j = v.mem u j := by
  have huf : u ≠ f := by
    rintro rfl
    exact h.not_table hh hu
  rw [h.mem, Function.update_of_ne huf, setEntry_of_ne hne]

theorem Linked.tableAt_old (h : Linked A root v v' p t i f e) :
    v.tableAt root (p ++ [i]) = none :=
  (follow_step h.table).trans h.free

theorem Unlinked.child (h : Unlinked A root v v' p t i c) :
    v.tableAt root (p ++ [i]) = some c :=
  (follow_step h.table).trans h.entry

theorem Vmm.leafAt_keep (hv : v.Tree root) (ht : v.tableAt root p = some t) (hs : p.length < 3)
    (hq : q.length = 3) (hat : v'.tableAt root q = v.tableAt root q)
    (hmem : ∀ u, v.tableAt root q = some u → u ≠ t → v'.mem u j = v.mem u j) :
    v'.leafAt root q j = v.leafAt root q j := by
  cases ho : v.tableAt root q with
  | none => rw [Vmm.leafAt_none ho, Vmm.leafAt_none (hat.trans ho)]
  | some u =>
    have hut : u ≠ t := by
      rintro rfl
      have hqp := hv q p u (Nat.le_of_eq hq) (Nat.le_of_lt hs) ho ht
      rw [← hqp] at hs
      omega
    rw [Vmm.leafAt_eq ho, Vmm.leafAt_eq (hat.trans ho), hmem u ho hut]

section Linked
variable (h : Linked A root v v' p t i f e) (hv : v.Tree root) (hh : v.TablesHeld A root)
include h hv hh

theorem Linked.tableAt (hq : q.length ≤ 3) :
    v'.tableAt root q = if q = p ++ [i] then some f else v.tableAt root q := by
  rw [Vmm.tableAt, h.mem]
  exact hv.follow_link h.table h.short h.free h.entry (h.not_table hh) (fun _ => rfl) hq

theorem Linked.tableAt_self : v'.tableAt root (p ++ [i]) = some f := by
  have hs := h.short
  rw [h.tableAt hv hh (by simp; omega), if_pos rfl]

theorem Linked.tree : v'.Tree root :=
  hv.of_link (h.not_table hh) fun _ hq => h.tableAt hv hh hq

theorem Linked.isTable : v'.IsTable root u ↔ u = f ∨ v.IsTable root u := by
  constructor
  · rintro ⟨q, hq, hu⟩
    rw [← Vmm.tableAt, h.tableAt hv hh hq] at hu
    split at hu
    · cases hu
      exact .inl rfl
    · exact .inr ⟨q, hq, hu⟩
  · rintro (rfl | ⟨q, hq, hu⟩)
    · have hs := h.short
      exact ⟨p ++ [i], by simp; omega, h.tableAt_self hv hh⟩
    · refine ⟨q, hq, ?_⟩
      rw [← Vmm.tableAt, h.tableAt hv hh hq, if_neg]
      · exact hu
      · rintro rfl
        have hold := h.tableAt_old
        rw [Vmm.tableAt, hu] at hold
        cases hold

theorem Linked.tablesHeld : v'.TablesHeld A root := by
  intro u hu
  rw [h.held]
  rcases (h.isTable hv hh).1 hu with rfl | hu
  · exact Finset.mem_insert_self ..
  · exact Finset.mem_insert_of_mem (hh u hu)

theorem Linked.leafAt (hq : q.length = 3) : v'.leafAt root q j = v.leafAt root q j := by
  have hat := h.tableAt hv hh (Nat.le_of_eq hq)
  by_cases hnew : q = p ++ [i]
  · rw [if_pos hnew] at hat
    rw [Vmm.leafAt_eq hat, h.mem, Function.update_self, hnew,
      Vmm.leafAt_none (h.tableAt_old)]
    rfl
  · rw [if_neg hnew] at hat
    exact Vmm.leafAt_keep hv h.table h.short hq hat fun u ho hut =>
      h.mem_of_ne hh ⟨q, Nat.le_of_eq hq, ho⟩ (.inl hut)

end Linked

section Unlinked
variable (h : Unlinked A root v v' p t i c) (hv : v.Tree root)
include h hv

theorem Unlinked.tableAt (hq : q.length ≤ 3) :
    v'.tableAt root q = if q = p ++ [i] then none else v.tableAt root q := by
  have hdead : ∀ j, pteNext (v.mem c j) = none := fun j => by rw [h.empty j]; rfl
  rw [Vmm.tableAt, h.mem]
  exact hv.follow_unlink h.table h.short h.entry hdead pteNext_zero hq

theorem Unlinked.tree : v'.Tree root := by
  apply hv.of_follow
  intro q u hq hu
  rw [← Vmm.tableAt, h.tableAt hv hq] at hu
  split at hu
  · cases hu
  · exact hu

theorem Unlinked.isTable : v'.IsTable root u ↔ v.IsTable root u ∧ u ≠ c := by
  have hs := h.short
  have hc := h.child
  constructor
  · rintro ⟨q, hq, hu⟩
    rw [← Vmm.tableAt, h.tableAt hv hq] at hu
    split at hu
    · cases hu
    · next hne =>
      refine ⟨⟨q, hq, hu⟩, ?_⟩
      rintro rfl
      exact hne (hv q (p ++ [i]) u hq (by simp; omega) hu hc)
  · rintro ⟨⟨q, hq, hu⟩, hne⟩
    refine ⟨q, hq, ?_⟩
    rw [← Vmm.tableAt, h.tableAt hv hq, if_neg]
    · exact hu
    · rintro rfl
      rw [Vmm.tableAt, hu] at hc
      cases hc
      exact hne rfl

theorem Unlinked.tablesHeld (hh : v.TablesHeld A root) : v'.TablesHeld A root := by
  have hs := h.short
  have hc : c ∈ A.held v.frames := hh c ⟨p ++ [i], by simp; omega, h.child⟩
  intro u hu
  obtain ⟨hu, hne⟩ := (h.isTable hv).1 hu
  rw [h.frames, A.free_held _ _ hc]
  exact Finset.mem_erase.2 ⟨hne, hh u hu⟩

theorem Unlinked.leafAt (hq : q.length = 3) : v'.leafAt root q j = v.leafAt root q j := by
  have hat := h.tableAt hv (Nat.le_of_eq hq)
  by_cases hgone : q = p ++ [i]
  · rw [if_pos hgone] at hat
    rw [Vmm.leafAt_none hat, hgone, Vmm.leafAt_eq (h.child), h.empty]
    rfl
  · rw [if_neg hgone] at hat
    refine Vmm.leafAt_keep hv h.table h.short hq hat fun u _ hut => ?_
    rw [h.mem, setEntry_node hut]

end Unlinked

section LeafSet
variable (h : LeafSet root v v' p t i e) (hv : v.Tree root)
include h hv

theorem LeafSet.tableAt (hq : q.length ≤ 3) : v'.tableAt root q = v.tableAt root q := by
  rw [Vmm.tableAt, h.mem]
  exact hv.follow_leaf h.table h.deep hq

theorem LeafSet.tree : v'.Tree root :=
  hv.of_follow fun _ _ hq hu => (h.tableAt hv hq).symm.trans hu

theorem LeafSet.isTable : v'.IsTable root u ↔ v.IsTable root u := by
  constructor
  · rintro ⟨q, hq, hu⟩
    exact ⟨q, hq, (h.tableAt hv hq).symm.trans hu⟩
  · rintro ⟨q, hq, hu⟩
    exact ⟨q, hq, (h.tableAt hv hq).trans hu⟩

theorem LeafSet.tablesHeld (hh : v.TablesHeld A root) : v'.TablesHeld A root := by
  intro u hu
  rw [h.frames]
  exact hh u ((h.isTable hv).1 hu)

theorem LeafSet.leafAt_self : v'.leafAt root p i = leafOf e := by
  have hat := (h.tableAt hv (Nat.le_of_eq h.deep)).trans h.table
  rw [Vmm.leafAt_eq hat, h.mem, setEntry_self]

theorem LeafSet.leafAt_of_ne (hq : q.length = 3) (hne : q ≠ p ∨ j ≠ i) :
    v'.leafAt root q j = v.leafAt root q j := by
  have hat := h.tableAt hv (Nat.le_of_eq hq)
  cases ho : v.tableAt root q with
  | none => rw [Vmm.leafAt_none ho, Vmm.leafAt_none (hat.trans ho)]
  | some u =>
    have hne' : u ≠ t ∨ j ≠ i := by
      rcases hne with hne | hne
      · refine .inl ?_
        rintro rfl
        exact hne (hv q p u (Nat.le_of_eq hq) (Nat.le_of_eq h.deep) ho h.table)
      · exact .inr hne
    rw [Vmm.leafAt_eq ho, Vmm.leafAt_eq (hat.trans ho), h.mem, setEntry_of_ne hne']

end LeafSet

theorem LeafSet.translate_self (h : LeafSet root v v' (tablePath virt) pt (ptIndex virt) e)
    (hv : v.Tree root) : v'.translate root virt = leafOf e := h.leafAt_self hv

theorem LeafSet.translate_of_ne (h : LeafSet root v v' (tablePath virt) pt (ptIndex virt) e)
    (hv : v.Tree root) (hw : pageNumber w ≠ pageNumber virt) :
    v'.translate root w = v.translate root w :=
  h.leafAt_of_ne hv rfl (path_ne hw)

end AdaOS
