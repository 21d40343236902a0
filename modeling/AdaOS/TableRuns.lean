import AdaOS.MapPage
import AdaOS.UnmapPage

namespace AdaOS
set_option autoImplicit true
open Radix

/-- The frames taken for tables and not given back, by the calls made so far. -/
def heldTables : List PageEvent → List (BitVec 64)
  | [] => []
  | .taken f :: events => f :: heldTables events
  | .refused :: events => heldTables events
  | .given f :: events => (heldTables events).erase f

/-- Runs of `map_page` and `unmap_page` on any addresses; `pp_alloc` may fail in any of them. -/
inductive VmmRun (A : FrameAllocator σ) (root : BitVec 64) (v : Vmm σ) : Vmm σ → Prop where
  | start : VmmRun A root v v
  | map : VmmRun A root v w → mapPage A w root virt phys flags = .ok (r, w') →
      VmmRun A root v w'
  | unmap : VmmRun A root v w → unmapPage A w root virt = (r, w') → VmmRun A root v w'

variable {σ : Type} {A : FrameAllocator σ} {v v' w : Vmm σ} {root : BitVec 64}

/-- The tables of the tree are the frames taken for tables. -/
structure Vmm.Owned (A : FrameAllocator σ) (v : Vmm σ) (root : BitVec 64) : Prop where
  tree : v.Tree root
  held : v.TablesHeld A root
  exact : ∀ t, t ∈ heldTables v.trace ↔ v.IsTable root t
  nodup : (heldTables v.trace).Nodup

theorem Refused.heldTables_eq (hr : Refused A v v') :
    heldTables v'.trace = heldTables v.trace := by
  rw [hr.trace]
  rfl

theorem Linked.heldTables_eq (hl : Linked A root v v' p t i f e) :
    heldTables v'.trace = f :: heldTables v.trace := by
  rw [hl.trace]
  rfl

theorem Unlinked.heldTables_eq (hu : Unlinked A root v v' p t i c) :
    heldTables v'.trace = (heldTables v.trace).erase c := by
  rw [hu.trace]
  rfl

theorem Vmm.Owned.refused (h : v.Owned A root) (hr : Refused A v v') : v'.Owned A root := by
  have ht := hr.heldTables_eq
  refine ⟨hr.tree h.tree, hr.tablesHeld h.held, fun t => ?_, ht ▸ h.nodup⟩
  rw [ht, h.exact, hr.isTable]

theorem Vmm.Owned.linked (h : v.Owned A root) (hl : Linked A root v v' p t i f e) :
    v'.Owned A root := by
  have ht := hl.heldTables_eq
  refine ⟨hl.tree h.tree h.held, hl.tablesHeld h.tree h.held, fun u => ?_, ?_⟩
  · rw [ht, List.mem_cons, h.exact, hl.isTable h.tree h.held]
  · rw [ht, List.nodup_cons, h.exact]
    exact ⟨hl.not_table h.held, h.nodup⟩

theorem Vmm.Owned.leafSet (h : v.Owned A root) (hl : LeafSet root v v' p t i e) :
    v'.Owned A root := by
  refine ⟨hl.tree h.tree, hl.tablesHeld h.tree h.held, fun u => ?_, ?_⟩
  · rw [hl.trace, h.exact, hl.isTable h.tree]
  · rw [hl.trace]
    exact h.nodup

theorem Vmm.Owned.unlinked (h : v.Owned A root) (hu : Unlinked A root v v' p t i c) :
    v'.Owned A root := by
  have ht := hu.heldTables_eq
  refine ⟨hu.tree h.tree, hu.tablesHeld h.tree h.held, fun u => ?_, ?_⟩
  · rw [ht, h.nodup.mem_erase_iff, h.exact, hu.isTable h.tree]
    exact And.comm
  · rw [ht]
    exact h.nodup.erase c

theorem Vmm.Owned.grows (h : v.Owned A root) (hg : Grows A root v v') : v'.Owned A root := by
  induction hg with
  | refl => exact h
  | refused _ hr ih => exact ih.refused hr
  | linked _ hl ih => exact ih.linked hl

theorem Vmm.Owned.shrinks (h : v.Owned A root) (hs : Shrinks A root v freed v') :
    v'.Owned A root := by
  induction hs with
  | refl => exact h
  | unlinked _ hu ih => exact ih.unlinked hu

theorem Vmm.Owned.map (h : v.Owned A root)
    (hm : mapPage A v root virt phys flags = .ok (r, v')) : v'.Owned A root := by
  rcases mapPage_cases h.tree h.held hm with ⟨_, hg⟩ | ⟨_, w, pt, hg, hset⟩
  · exact h.grows hg
  · exact (h.grows hg).leafSet hset

theorem unmapPage_misaligned (ha : virt.toNat % pageSize ≠ 0) :
    unmapPage A v root virt = (false, v) := if_pos ha

theorem Vmm.Owned.unmap (h : v.Owned A root) (hm : unmapPage A v root virt = (r, v')) :
    v'.Owned A root := by
  by_cases ha : virt.toNat % pageSize = 0
  · rcases unmapPage_cases h.tree ha hm with ⟨rfl, _⟩ | ⟨w, pt, freed, hset, hs⟩
    · exact h
    · exact (h.leafSet hset).shrinks hs
  · rw [unmapPage_misaligned ha] at hm
    cases hm
    exact h

/-- The ownership of the tables holds along every run. -/
theorem VmmRun.owned (h : v.Owned A root) (hr : VmmRun A root v v') : v'.Owned A root := by
  induction hr with
  | start => exact h
  | map _ hm ih => exact ih.map hm
  | unmap _ hm ih => exact ih.unmap hm

/-- What the edits of the tree keep, one at a time, holds along every run. -/
theorem VmmRun.keeps {P : Vmm σ → Prop} (h : v.Owned A root) (hr : VmmRun A root v v') (h₀ : P v)
    (hgrow : ∀ {w w'}, w.Owned A root → Grows A root w w' → P w → P w')
    (hset : ∀ {w w' virt t i e}, w.Owned A root → LeafSet root w w' (tablePath virt) t i e →
      P w → P w')
    (hshrink : ∀ {w w' freed}, w.Owned A root → Shrinks A root w freed w' → P w → P w') :
    P v' := by
  induction hr with
  | start => exact h₀
  | map hr hm ih =>
    have ho := hr.owned h
    rcases mapPage_cases ho.tree ho.held hm with ⟨_, hg⟩ | ⟨_, u, pt, hg, hs⟩
    · exact hgrow ho hg ih
    · exact hset (ho.grows hg) hs (hgrow ho hg ih)
  | @unmap w virt r w' hr hm ih =>
    have ho := hr.owned h
    by_cases ha : virt.toNat % pageSize = 0
    · rcases unmapPage_cases ho.tree ha hm with ⟨rfl, _⟩ | ⟨u, pt, freed, hs, hf⟩
      · exact ih
      · exact hshrink (ho.leafSet hs) hf (hset ho hs ih)
    · rw [unmapPage_misaligned ha] at hm
      cases hm
      exact ih

/-- Each entry of the top level for the higher half has a table. -/
def Vmm.UpperPresent (v : Vmm σ) (root : BitVec 64) : Prop :=
  ∀ i : Fin 512, 256 ≤ i.val → pteNext (v.mem root i) ≠ none

theorem Linked.root_entry (h : Linked A root v v' p t i f e) (hh : v.TablesHeld A root)
    (hj : pteNext (v.mem root j) ≠ none) : v'.mem root j = v.mem root j := by
  apply h.mem_of_ne hh .root
  by_contra hsame
  rw [not_or, not_not, not_not] at hsame
  obtain ⟨rfl, rfl⟩ := hsame
  exact hj h.free

theorem Grows.root_entry (hg : Grows A root v v') (hv : v.Tree root)
    (hh : v.TablesHeld A root) (hj : pteNext (v.mem root j) ≠ none) :
    v'.mem root j = v.mem root j := by
  induction hg with
  | refl => rfl
  | refused _ hr ih => rw [hr.mem, ih]
  | linked hg hl ih =>
    rw [hl.root_entry (hg.inv hv hh).2 (ih ▸ hj), ih]

theorem VmmRun.upper (h : v.Owned A root) (hup : v.UpperPresent root)
    (hr : VmmRun A root v v') {i : Fin 512} (hi : 256 ≤ i.val) :
    v'.mem root i = v.mem root i := by
  refine hr.keeps (P := fun w => w.mem root i = v.mem root i) h rfl ?_ ?_ ?_
  · intro w w' ho hg ih
    have hj := hup i hi
    rw [← ih] at hj
    rw [hg.root_entry ho.tree ho.held hj, ih]
  · intro w w' virt t j e ho hset ih
    rw [hset.upper ho.tree, ih]
  · intro w w' freed ho hs ih
    rw [hs.upper ho.tree hi, ih]

theorem Grows.suffix (hg : Grows A root v v') : v.trace <:+ v'.trace := by
  induction hg with
  | refl => exact List.suffix_refl _
  | refused _ hr ih => exact hr.trace ▸ ih.trans (List.suffix_cons ..)
  | linked _ hl ih => exact hl.trace ▸ ih.trans (List.suffix_cons ..)

theorem VmmRun.suffix (h : v.Owned A root) (hr : VmmRun A root v v') :
    v.trace <:+ v'.trace := by
  refine hr.keeps (P := fun w => v.trace <:+ w.trace) h (List.suffix_refl _) ?_ ?_ ?_
  · exact fun _ hg ih => ih.trans hg.suffix
  · exact fun _ hset ih => hset.trace ▸ ih
  · intro w w' freed _ hs ih
    rw [hs.trace]
    exact ih.trans (List.suffix_append ..)

theorem VmmRun.trans (h : VmmRun A root v w) (h' : VmmRun A root w v') : VmmRun A root v v' := by
  induction h' with
  | start => exact h
  | map _ hm ih => exact ih.map hm
  | unmap _ hm ih => exact ih.unmap hm

theorem Vmm.Owned.single (hz : ∀ i, v.mem root i = 0) (ht : v.trace = [.taken root])
    (hh : root ∈ A.held v.frames) : v.Owned A root := by
  obtain ⟨htree, htable⟩ := Vmm.tree_of_empty hz
  refine ⟨htree, fun t hm => ?_, fun t => ?_, ?_⟩
  · rw [(htable t).1 hm]
    exact hh
  · rw [htable, ht]
    exact List.mem_singleton
  · rw [ht]
    exact List.nodup_singleton _

theorem preallocate_spec (h : v.Owned A root) (hp : preallocate A root is v = .ok v') :
    Grows A root v v' ∧ (.refused ∉ v'.trace → ∀ i ∈ is, pteNext (v'.mem root i) ≠ none) := by
  induction is generalizing v with
  | nil =>
    cases hp
    exact ⟨.refl, fun _ _ hi => nomatch hi⟩
  | cons i is ih =>
    obtain ⟨⟨r, w⟩, hget, hp⟩ := bind_ok hp
    have hstep : Grows A root v w ∧ (.refused ∉ w.trace → pteNext (w.mem root i) ≠ none) := by
      rcases getOrAllocateNextLevel_cases h.held (p := []) rfl (by decide) rfl (.inl rfl) hget with
        ⟨c, _, hc, rfl⟩ | ⟨_, _, hr⟩ | ⟨f, e, _, hl⟩
      · exact ⟨.refl, fun _ => by rw [hc]; exact Option.some_ne_none c⟩
      · refine ⟨.refused .refl hr, fun hno => ?_⟩
        rw [hr.trace] at hno
        exact (hno (List.mem_cons_self ..)).elim
      · refine ⟨.linked .refl hl, fun _ => ?_⟩
        have hself := hl.tableAt_self h.tree h.held
        rw [Vmm.tableAt, follow_step rfl] at hself
        rw [hself]
        exact Option.some_ne_none f
    obtain ⟨hg, hi⟩ := hstep
    have ho := h.grows hg
    obtain ⟨hg', hrest⟩ := ih ho hp
    refine ⟨hg.trans hg', fun hno j hj => ?_⟩
    rcases List.mem_cons.1 hj with rfl | hj
    · have hw := hi fun hm => hno (hg'.suffix.subset hm)
      rw [hg'.root_entry ho.tree ho.held hw]
      exact hw
    · exact hrest hno j hj

theorem mem_upperHalf : i ∈ upperHalf ↔ 256 ≤ i.val := by
  rw [upperHalf, List.mem_filter, decide_eq_true_iff]
  exact ⟨And.right, fun h => ⟨List.mem_finRange i, h⟩⟩

theorem setupPml4_ok (h : setupPml4 A v = .ok (root, v')) :
    ∃ w, (∀ i, w.mem root i = 0) ∧ w.trace = .taken root :: v.trace ∧
      root ∈ A.held w.frames ∧ preallocate A root upperHalf w = .ok v' := by
  obtain ⟨⟨o, v₁⟩, hall, h⟩ := bind_ok h
  rcases Vmm.ppAlloc_cases hall with ⟨rfl, _⟩ | ⟨f, rfl, hc⟩
  · cases h
  · obtain ⟨v₂, hpre, h⟩ := bind_ok h
    cases h
    refine ⟨v₁.clear f.addr, fun i => ?_, hc.trace, ?_, hpre⟩
    · simp only [Vmm.clear, Function.update_self]
    · change f.addr ∈ A.held v₁.frames
      rw [hc.held]
      exact Finset.mem_insert_self ..

theorem setupPml4_owned (ht : v.trace = []) (h : setupPml4 A v = .ok (root, v')) :
    v'.Owned A root ∧ (.refused ∉ v'.trace → v'.UpperPresent root) := by
  obtain ⟨w, hz, htrace, hheld, hpre⟩ := setupPml4_ok h
  have hw : w.Owned A root := .single hz (ht ▸ htrace) hheld
  obtain ⟨hg, hup⟩ := preallocate_spec hw hpre
  exact ⟨hw.grows hg, fun hno i hi => hup hno i (mem_upperHalf.2 hi)⟩

theorem mapPages_run (h : mapPages A root page msg addr n v = .ok v') : VmmRun A root v v' := by
  induction n generalizing addr v with
  | zero =>
    cases h
    exact .start
  | succ n ih =>
    obtain ⟨⟨r, w⟩, hm, h⟩ := bind_ok h
    cases r with
    | false => cases h
    | true => exact (VmmRun.start.map hm).trans (ih h)

theorem mapPages_append (h₁ : mapPages A root page msg addr m v = .ok w)
    (h₂ : mapPages A root page msg (addr + m * pageSize) n w = .ok v') :
    mapPages A root page msg addr (m + n) v = .ok v' := by
  induction m generalizing addr v with
  | zero =>
    cases h₁
    rw [Nat.zero_mul, Nat.add_zero] at h₂
    rwa [Nat.zero_add]
  | succ m ih =>
    obtain ⟨⟨r, u⟩, hm, h₁⟩ := bind_ok h₁
    cases r with
    | false => cases h₁
    | true =>
      have hnext : addr + (m + 1) * pageSize = addr + pageSize + m * pageSize := by
        rw [Nat.succ_mul, Nat.add_right_comm, Nat.add_assoc]
      rw [hnext] at h₂
      rw [Nat.add_right_comm]
      exact (bind_of_ok hm _).trans (ih h₁ h₂)

theorem mapChunks_run (h : mapChunks A k root cs v = .ok v') : VmmRun A root v v' := by
  induction cs generalizing v with
  | nil =>
    cases h
    exact .start
  | cons c cs ih =>
    rw [mapChunks] at h
    split at h
    · exact ih h
    · obtain ⟨w, hc, h⟩ := bind_ok h
      exact (mapPages_run hc).trans (ih h)

theorem mapFramebuffer_run (h : mapFramebuffer A root virt phys n v = .ok v') :
    VmmRun A root v v' := by
  induction n generalizing virt phys v with
  | zero =>
    cases h
    exact .start
  | succ n ih =>
    obtain ⟨⟨r, w⟩, hm, h⟩ := bind_ok h
    exact (VmmRun.start.map hm).trans (ih h)

theorem setupVmm_run (h : setupVmm A k v = .ok (root, v')) :
    ∃ w, setupPml4 A v = .ok (root, w) ∧ VmmRun A root w v' := by
  obtain ⟨⟨r, u⟩, hk, h⟩ := bind_ok h
  obtain ⟨⟨r', w⟩, hp, hk⟩ := bind_ok hk
  obtain ⟨w₁, hi, hk⟩ := bind_ok hk
  obtain ⟨w₂, hc, hk⟩ := bind_ok hk
  cases hk
  obtain ⟨w₃, hf, h⟩ := bind_ok h
  cases h
  exact ⟨w, hp, ((mapPages_run hi).trans (mapChunks_run hc)).trans (mapFramebuffer_run hf)⟩

theorem preallocate_lasts (root : BitVec 64) (is : List (Fin 512))
    (h : A.Lasts (n + is.length) v.frames) :
    ∃ v', preallocate A root is v = .ok v' ∧ A.Lasts n v'.frames ∧
      (.refused ∉ v.trace → .refused ∉ v'.trace) := by
  induction is generalizing v with
  | nil => exact ⟨v, rfl, h, fun hno => hno⟩
  | cons i is ih =>
    obtain ⟨c, v₁, h₁, hl₁, hn₁⟩ := getOrAllocateNextLevel_lasts (n := n + is.length) h root i 0
    obtain ⟨v₂, h₂, hl₂, hn₂⟩ := ih hl₁
    exact ⟨v₂, (bind_of_ok h₁ _).trans h₂, hl₂, fun hno => hn₂ (hn₁ hno)⟩

theorem upperHalf_length : upperHalf.length ≤ 512 := by
  have hle := List.length_filter_le (fun i : Fin 512 => decide (256 ≤ i.val)) (List.finRange 512)
  rwa [List.length_finRange] at hle

theorem setupPml4_lasts (h : A.Lasts (n + 512 + 1) v.frames) :
    ∃ root v', setupPml4 A v = .ok (root, v') ∧ A.Lasts n v'.frames ∧
      (.refused ∉ v.trace → .refused ∉ v'.trace) := by
  simp only [setupPml4]
  have hlen := upperHalf_length
  generalize upperHalf = is at hlen ⊢
  obtain ⟨f, s, ha, hl⟩ := h
  replace hl := hl.mono (Nat.add_le_add_left hlen n)
  have hall : v.ppAlloc A = .ok (some f,
      Vmm.clear { v with frames := s, trace := .taken f.addr :: v.trace } f.addr) := by
    rw [Vmm.ppAlloc, ha]
    rfl
  obtain ⟨v', hp, hl', hn⟩ := preallocate_lasts f.addr is (n := n)
    (v := Vmm.clear (Vmm.clear { v with
      frames := s, trace := .taken f.addr :: v.trace } f.addr) f.addr) hl
  refine ⟨f.addr, v', (bind_of_ok hall _).trans ((bind_of_ok hp _).trans rfl), hl',
    fun hno => hn fun hm => ?_⟩
  rcases List.mem_cons.1 hm with he | hm
  · cases he
  · exact hno hm

theorem mapPages_lasts (root : BitVec 64) (page : Nat → BitVec 64 × BitVec 64 × BitVec 64)
    (msg : String) (addr : Nat) (h : A.Lasts (m + n * 3) v.frames) :
    ∃ v', mapPages A root page msg addr n v = .ok v' ∧ A.Lasts m v'.frames ∧
      (.refused ∉ v.trace → .refused ∉ v'.trace) := by
  induction n generalizing v addr with
  | zero => exact ⟨v, rfl, h, fun hno => hno⟩
  | succ n ih =>
    obtain ⟨v₁, h₁, hl₁, hn₁⟩ := mapPage_lasts (n := m + n * 3) (h.mono (by omega)) root
      (page addr).1 (page addr).2.1 (page addr).2.2
    obtain ⟨v₂, h₂, hl₂, hn₂⟩ := ih (addr + pageSize) hl₁
    exact ⟨v₂, (bind_of_ok h₁ _).trans h₂, hl₂, fun hno => hn₂ (hn₁ hno)⟩

theorem mapPages_row (hv : v.Tree root) (ht : v.tableAt root p = some pt)
    (hrow : ∀ i < n, tablePath (page (addr + i * pageSize)).1 = p) :
    ∃ v', mapPages A root page msg addr n v = .ok v' ∧ v'.frames = v.frames := by
  induction n generalizing v addr with
  | zero => exact ⟨v, rfl, rfl⟩
  | succ n ih =>
    have hfirst := hrow 0 (Nat.succ_pos n)
    rw [Nat.zero_mul, Nat.add_zero] at hfirst
    obtain ⟨w, hw, hset⟩ := mapPage_present (A := A) (hfirst ▸ ht) (page addr).2.1
      (page addr).2.2
    have hlen : p.length ≤ 3 := hfirst ▸ Nat.le_refl 3
    have hrest : ∀ i < n, tablePath (page (addr + pageSize + i * pageSize)).1 = p := by
      intro i hi
      have hnext := hrow (i + 1) (Nat.succ_lt_succ hi)
      rwa [Nat.succ_mul, Nat.add_comm (i * pageSize), ← Nat.add_assoc] at hnext
    obtain ⟨v', hv', hframes⟩ := ih (hset.tree hv) ((hset.tableAt hv hlen).trans ht) hrest
    exact ⟨v', (bind_of_ok hw _).trans hv', hframes.trans hset.frames⟩

/-- A row of 512 pages that share a page table takes three frames at most. -/
theorem mapPages_rows (ho : v.Owned A root) (hl : A.Lasts (m + r * 3) v.frames)
    (hrow : ∀ i < r, ∀ j < 512, tablePath (page (addr + (i * 512 + j) * pageSize)).1 =
      tablePath (page (addr + i * 512 * pageSize)).1) :
    ∃ v', mapPages A root page msg addr (r * 512) v = .ok v' ∧ A.Lasts m v'.frames := by
  induction r generalizing v addr with
  | zero => exact ⟨v, by rw [Nat.zero_mul]; rfl, hl⟩
  | succ r ih =>
    obtain ⟨w, hw, hlw, _⟩ := mapPage_lasts (n := m + r * 3) (hl.mono (by omega)) root
      (page addr).1 (page addr).2.1 (page addr).2.2
    obtain ⟨hr, _⟩ | ⟨_, u, pt, hg, hset⟩ := mapPage_cases ho.tree ho.held hw
    · cases hr
    have hwo := ho.map hw
    have htu := (hg.inv ho.tree ho.held).1
    have hlen : (tablePath (page addr).1).length ≤ 3 := Nat.le_refl 3
    have hfirst : ∀ i < 511, tablePath (page (addr + pageSize + i * pageSize)).1 =
        tablePath (page addr).1 := by
      intro i hi
      have hj := hrow 0 (Nat.succ_pos r) (i + 1) (by omega)
      simp only [Nat.zero_mul, Nat.zero_add, Nat.add_zero, Nat.succ_mul] at hj
      rwa [Nat.add_comm (i * pageSize), ← Nat.add_assoc] at hj
    obtain ⟨v₁, hv₁, hframes⟩ : ∃ v₁, mapPages A root page msg (addr + pageSize) 511 w = .ok v₁ ∧
        v₁.frames = w.frames :=
      mapPages_row hwo.tree ((hset.tableAt htu hlen).trans hset.table) hfirst
    have hone : mapPages A root page msg addr (511 + 1) v = .ok v₁ := (bind_of_ok hw _).trans hv₁
    have ho₁ := (mapPages_run hone).owned ho
    have hrest : ∀ i < r, ∀ j < 512,
        tablePath (page (addr + 512 * pageSize + (i * 512 + j) * pageSize)).1 =
          tablePath (page (addr + 512 * pageSize + i * 512 * pageSize)).1 := by
      intro i hi j hj
      have hnext := hrow (i + 1) (Nat.succ_lt_succ hi) j hj
      have hb : (i + 1) * 512 = 512 + i * 512 := (Nat.succ_mul i 512).trans (Nat.add_comm ..)
      have ha : (i + 1) * 512 + j = 512 + (i * 512 + j) := by rw [hb, Nat.add_assoc]
      rw [ha, hb, Nat.add_mul, Nat.add_mul 512, ← Nat.add_assoc, ← Nat.add_assoc] at hnext
      exact hnext
    obtain ⟨v', hv', hl'⟩ := ih ho₁ (hframes ▸ hlw) hrest
    refine ⟨v', ?_, hl'⟩
    have hcount : (r + 1) * 512 = 511 + 1 + r * 512 := by omega
    rw [hcount]
    exact mapPages_append hone hv'

def chunkPages (cs : List Chunk) : Nat :=
  (cs.map fun c => pagesBetween (alignUp c.base pageSize) (alignUp c.bounds pageSize)).sum

theorem chunkPages_cons : chunkPages (c :: cs) =
    pagesBetween (alignUp c.base pageSize) (alignUp c.bounds pageSize) + chunkPages cs := rfl

theorem mapChunks_lasts (k : KernelLayout) (root : BitVec 64)
    (h : A.Lasts (n + chunkPages cs * 3) v.frames) :
    ∃ v', mapChunks A k root cs v = .ok v' ∧ A.Lasts n v'.frames ∧
      (.refused ∉ v.trace → .refused ∉ v'.trace) := by
  induction cs generalizing v with
  | nil => exact ⟨v, rfl, h, fun hno => hno⟩
  | cons c cs ih =>
    rw [chunkPages_cons, Nat.add_mul, Nat.add_comm (_ * 3), ← Nat.add_assoc] at h
    rw [mapChunks]
    split
    · exact ih (h.mono (Nat.le_add_right ..))
    · obtain ⟨v₁, h₁, hl₁, hn₁⟩ := mapPages_lasts _ _ _ _ h
      obtain ⟨v₂, h₂, hl₂, hn₂⟩ := ih hl₁
      exact ⟨v₂, (bind_of_ok h₁ _).trans h₂, hl₂, fun hno => hn₂ (hn₁ hno)⟩

theorem mapFramebuffer_lasts (root : BitVec 64) (virt phys : Nat)
    (h : A.Lasts (m + n * 3) v.frames) :
    ∃ v', mapFramebuffer A root virt phys n v = .ok v' ∧ A.Lasts m v'.frames ∧
      (.refused ∉ v.trace → .refused ∉ v'.trace) := by
  induction n generalizing v virt phys with
  | zero => exact ⟨v, rfl, h, fun hno => hno⟩
  | succ n ih =>
    obtain ⟨v₁, h₁, hl₁, hn₁⟩ := mapPage_lasts (n := m + n * 3) (h.mono (by omega)) root
      (BitVec.ofNat 64 virt) (BitVec.ofNat 64 phys)
      (ptePresent ||| pteWritable ||| ptePcd ||| ptePat)
    obtain ⟨v₂, h₂, hl₂, hn₂⟩ := ih (virt + pageSize) (phys + pageSize) hl₁
    exact ⟨v₂, (bind_of_ok h₁ _).trans h₂, hl₂, fun hno => hn₂ (hn₁ hno)⟩

/-- The frames that are always enough for the loops of `setup_vmm`. -/
def KernelLayout.mapFrames (k : KernelLayout) : Nat :=
  (pagesBetween k.virtualBase (alignUp k.bssEnd pageSize) +
    chunkPages (k.desc.chunkPtr.take k.desc.chunkCount)) * 3

theorem mapKernel_lasts (h : A.Lasts (n + k.mapFrames + 512 + 1) v.frames) :
    ∃ root v', mapKernel A k v = .ok (root, v') ∧ A.Lasts n v'.frames ∧
      (.refused ∉ v.trace → .refused ∉ v'.trace) := by
  obtain ⟨root, v₁, h₁, hl₁, hn₁⟩ := setupPml4_lasts h
  rw [KernelLayout.mapFrames, Nat.add_mul] at hl₁
  obtain ⟨v₂, h₂, hl₂, hn₂⟩ := mapPages_lasts root k.imagePage
    "Failed to map kernel page." k.virtualBase
    (m := n + chunkPages (k.desc.chunkPtr.take k.desc.chunkCount) * 3)
    (n := pagesBetween k.virtualBase (alignUp k.bssEnd pageSize)) (hl₁.mono (by omega))
  obtain ⟨v₃, h₃, hl₃, hn₃⟩ := mapChunks_lasts k root hl₂
  exact ⟨root, v₃, (bind_of_ok h₁ _).trans ((bind_of_ok h₂ _).trans ((bind_of_ok h₃ _).trans rfl)),
    hl₃, fun hno => hn₃ (hn₂ (hn₁ hno))⟩

theorem setupVmm_lasts
    (h : A.Lasts (n + k.fbPages * 3 + k.mapFrames + 512 + 1) v.frames) :
    ∃ root v', setupVmm A k v = .ok (root, v') ∧ A.Lasts n v'.frames ∧
      (.refused ∉ v.trace → .refused ∉ v'.trace) := by
  obtain ⟨root, v₁, h₁, hl₁, hn₁⟩ := mapKernel_lasts h
  obtain ⟨v₂, h₂, hl₂, hn₂⟩ := mapFramebuffer_lasts root k.fbAddress
    (sub64 k.fbAddress k.higherHalf) hl₁
  exact ⟨root, v₂, (bind_of_ok h₁ _).trans ((bind_of_ok h₂ _).trans rfl), hl₂,
    fun hno => hn₂ (hn₁ hno)⟩

theorem mapChunk_rows {k : KernelLayout} (msg : String) (ho : v.Owned A root)
    (hl : A.Lasts (m + r * 3) v.frames) (hdvd : 2 ^ 21 ∣ base + k.higherHalf)
    (htop : base + k.higherHalf + r * 2 ^ 21 ≤ 2 ^ 64) :
    ∃ v', mapPages A root k.hhdmPage msg base (r * 512) v = .ok v' ∧ A.Lasts m v'.frames := by
  apply mapPages_rows ho hl
  intro i hi j hj
  apply tablePath_eq
  have hsize : pageSize = 4096 := rfl
  obtain ⟨q, hq⟩ := hdvd
  rw [KernelLayout.hhdmPage, KernelLayout.hhdmPage, hsize, BitVec.toNat_ofNat,
    BitVec.toNat_ofNat, Nat.mod_eq_of_lt (by omega), Nat.mod_eq_of_lt (by omega)]
  omega

/-- Fewer frames are enough for `setup_vmm` when its only chunk is made of 2 MiB units. -/
theorem setupVmm_rows {k : KernelLayout} (hlist : k.desc.chunkPtr.take k.desc.chunkCount = [c])
    (hcount : pagesBetween (alignUp c.base pageSize) (alignUp c.bounds pageSize) = r * 512)
    (hpos : 0 < r) (hdvd : 2 ^ 21 ∣ alignUp c.base pageSize + k.higherHalf)
    (htop : alignUp c.base pageSize + k.higherHalf + r * 2 ^ 21 ≤ 2 ^ 64)
    (hl : A.Lasts (n + k.fbPages * 3 + r * 3 +
      pagesBetween k.virtualBase (alignUp k.bssEnd pageSize) * 3 + 512 + 1) s) :
    ∃ root v, setupVmm A k ⟨mem, s, []⟩ = .ok (root, v) ∧ A.Lasts n v.frames := by
  obtain ⟨root, v₁, h₁, hl₁, _⟩ := setupPml4_lasts (v := ⟨mem, s, []⟩) hl
  have ho₁ := (setupPml4_owned rfl h₁).1
  obtain ⟨v₂, h₂, hl₂, _⟩ := mapPages_lasts root k.imagePage "Failed to map kernel page."
    k.virtualBase hl₁
  have ho₂ := (mapPages_run h₂).owned ho₁
  obtain ⟨v₃, h₃, hl₃⟩ := mapChunk_rows "Failed to map HHDM page." ho₂ hl₂ hdvd htop
  obtain ⟨v₄, h₄, hl₄, _⟩ := mapFramebuffer_lasts root k.fbAddress
    (sub64 k.fbAddress k.higherHalf) hl₃
  have hsome : ¬alignUp c.bounds pageSize ≤ alignUp c.base pageSize := by
    intro hle
    rw [pagesBetween, Nat.sub_eq_zero_of_le hle] at hcount
    have hzero : 0 = r * 512 := hcount
    omega
  have hchunks : mapChunks A k root (k.desc.chunkPtr.take k.desc.chunkCount) v₂ = .ok v₃ := by
    rw [hlist, mapChunks, if_neg hsome, hcount]
    exact bind_of_ok h₃ _
  have hkernel : mapKernel A k ⟨mem, s, []⟩ = .ok (root, v₃) :=
    (bind_of_ok h₁ _).trans ((bind_of_ok h₂ _).trans ((bind_of_ok hchunks _).trans rfl))
  exact ⟨root, v₄, (bind_of_ok hkernel _).trans ((bind_of_ok h₄ _).trans rfl), hl₄⟩

/-- In every run after a `setup_vmm` whose allocations all succeeded, the frames taken for tables
are the tables of the tree, each of them but the top level hangs in one entry of one table, and
the upper half of the top level stays as `setup_vmm` left it. -/
theorem vmmRun_ownership (hs : setupVmm A k ⟨mem, s, []⟩ = .ok (root, v))
    (hok : .refused ∉ v.trace) (hr : VmmRun A root v v') :
    (∀ t, t ∈ heldTables v'.trace ↔ v'.IsTable root t) ∧ (heldTables v'.trace).Nodup ∧
    (∀ c, v'.IsTable root c → c ≠ root → ∃ p t i, p.length < 3 ∧ v'.tableAt root p = some t ∧
      pteNext (v'.mem t i) = some c ∧ ∀ q u j, q.length < 3 → v'.tableAt root q = some u →
        pteNext (v'.mem u j) = some c → q = p ∧ u = t ∧ j = i) ∧
    ∀ i : Fin 512, 256 ≤ i.val → v'.mem root i = v.mem root i := by
  obtain ⟨w, hp, hrun⟩ := setupVmm_run hs
  obtain ⟨hw, hup⟩ := setupPml4_owned rfl hp
  have hpresent := hup fun hm => hok ((hrun.suffix hw).subset hm)
  have ho := (hrun.trans hr).owned hw
  refine ⟨ho.exact, ho.nodup, ?_, ?_⟩
  · rintro c ⟨p, hp, hc⟩ hne
    rcases List.eq_nil_or_concat p with rfl | ⟨p, i, rfl⟩
    · exact (hne (Option.some.inj hc).symm).elim
    · rw [List.concat_eq_append, List.length_append, List.length_singleton] at hp
      rw [List.concat_eq_append, follow_append] at hc
      obtain ⟨t, ht, hc⟩ := Option.bind_eq_some_iff.1 hc
      have hent : pteNext (v'.mem t i) = some c := by
        rw [← hc]
        exact (follow_step (p := []) rfl).symm
      exact ⟨p, t, i, hp, ht, hent, fun q u j hq hu hd =>
        ho.tree.parent (p := p) hp ht hent hq hu hd⟩
  · intro i hi
    rw [(hrun.trans hr).upper hw hpresent hi, hrun.upper hw hpresent hi]

/-- A kernel image of four pages next to four pages of free memory. -/
def smallLayout : KernelLayout where
  textStart := 0xffffffff80001000
  textEnd := 0xffffffff80001800
  rodataStart := 0xffffffff80002000
  rodataEnd := 0xffffffff80002400
  dataStart := 0xffffffff80003000
  dataEnd := 0xffffffff80003100
  bssEnd := 0xffffffff80003800
  virtualBase := 0xffffffff80000000
  physicalBase := 0x7fe00000
  higherHalf := 0xffff800000000000
  desc := ⟨0x4000, 1, [⟨0x1000000, 0x1004000⟩]⟩
  fbPitch := 4096
  fbHeight := 2
  fbAddress := 0xffff8000fd000000

theorem vmmRun_ownership_small : ∃ (x : OwnedPmm oneChunk) (root : BitVec 64)
    (v : Vmm (OwnedPmm oneChunk)),
    setupVmm (pmmFrames oneChunk_sound) smallLayout ⟨fun _ _ => 0, x, []⟩ = .ok (root, v) ∧
    .refused ∉ v.trace ∧ ∀ v', VmmRun (pmmFrames oneChunk_sound) root v v' →
    (∀ t, t ∈ heldTables v'.trace ↔ v'.IsTable root t) ∧ (heldTables v'.trace).Nodup ∧
    (∀ c, v'.IsTable root c → c ≠ root → ∃ p t i, p.length < 3 ∧ v'.tableAt root p = some t ∧
      pteNext (v'.mem t i) = some c ∧ ∀ q u j, q.length < 3 → v'.tableAt root q = some u →
        pteNext (v'.mem u j) = some c → q = p ∧ u = t ∧ j = i) ∧
    ∀ i : Fin 512, 256 ≤ i.val → v'.mem root i = v.mem root i := by
  obtain ⟨x, _, hl⟩ := oneChunk_frames
  have hframes : smallLayout.mapFrames = 24 ∧ smallLayout.fbPages = 2 := ⟨rfl, rfl⟩
  have hl' : (pmmFrames oneChunk_sound).Lasts (0 + smallLayout.fbPages * 3 +
      smallLayout.mapFrames + 512 + 1) x := by
    apply hl.mono
    rw [hframes.1, hframes.2]
    omega
  obtain ⟨root, v, hs, _, hno⟩ := setupVmm_lasts (v := ⟨fun _ _ => 0, x, []⟩) hl'
  have hok := hno fun hm => nomatch hm
  exact ⟨x, root, v, hs, hok, fun v' hr => vmmRun_ownership hs hok hr⟩

end AdaOS
