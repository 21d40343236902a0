import AdaOS.Links
import AdaOS.Heap

namespace AdaOS
set_option autoImplicit true
open ByteMem Blocks

/-- The head of the free list may have changed, and memory where `P` holds. -/
structure Edits (P : Nat → Prop) (h h' : Heap σ) : Prop where
  vmm : h'.vmm = h.vmm
  pml4 : h'.pml4 = h.pml4
  start : h'.heapStart = h.heapStart
  size : h'.heapSize = h.heapSize
  bytes : ∀ a, ¬P a → h'.bytes a = h.bytes a

/-- The free list goes through these blocks. -/
structure Heap.Chained (h : Heap σ) (l : List Block) : Prop where
  links : Links h.bytes h.freeListHead l 0
  roomy : Roomy l
  nonzero : ∀ b ∈ l, b.addr ≠ 0
  below : ∀ b ∈ l, b.stop < 2 ^ 64

variable {σ : Type} {h h' h'' : Heap σ} {b c d : Block} {l front back : List Block}
  {P Q : Nat → Prop}

theorem Edits.refl : Edits P h h := ⟨rfl, rfl, rfl, rfl, fun _ _ => rfl⟩

theorem Edits.trans (h₁ : Edits P h h') (h₂ : Edits P h' h'') : Edits P h h'' :=
  ⟨h₂.vmm.trans h₁.vmm, h₂.pml4.trans h₁.pml4, h₂.start.trans h₁.start, h₂.size.trans h₁.size,
    fun a ha => (h₂.bytes a ha).trans (h₁.bytes a ha)⟩

theorem Edits.mono (h₁ : Edits P h h') (hPQ : ∀ a, P a → Q a) : Edits Q h h' :=
  ⟨h₁.vmm, h₁.pml4, h₁.start, h₁.size, fun a ha => h₁.bytes a fun hP => ha (hPQ a hP)⟩

theorem Edits.setWord (hp : d.addr ≤ p) (hs : p + 8 ≤ d.stop) :
    Edits d.Has h { h with bytes := setWord h.bytes p x } :=
  ⟨rfl, rfl, rfl, rfl, fun _ ha => setWord_of_not_has hp hs ha⟩

theorem Edits.setSize (hd : 16 ≤ d.size) : Edits d.Has h (h.setSize d.addr x) := by
  have hstop : d.stop = d.addr + d.size := rfl
  exact .setWord (Nat.le_refl _) (by omega)

theorem Edits.setNext (hd : 16 ≤ d.size) : Edits d.Has h (h.setNext d.addr x) := by
  have hstop : d.stop = d.addr + d.size := rfl
  exact .setWord (Nat.le_add_right ..) (by omega)

theorem Heap.sizeAt_setSize (hx : x < 2 ^ 64) : (h.setSize p x).sizeAt p = x := word_setWord hx

theorem Heap.nextAt_setNext (hx : x < 2 ^ 64) : (h.setNext p x).nextAt p = x := word_setWord hx

theorem Heap.nextAt_setSize : (h.setSize p x).nextAt p = h.nextAt p :=
  word_setWord_of_apart (.inl (Nat.le_refl _))

theorem Heap.sizeAt_setNext : (h.setNext p x).sizeAt p = h.sizeAt p :=
  word_setWord_of_apart (.inr (Nat.le_refl _))

theorem Heap.sizeAt_lt (h : Heap σ) (p : Nat) : h.sizeAt p < 2 ^ 64 := word_lt ..

theorem Heap.nextAt_lt (h : Heap σ) (p : Nat) : h.nextAt p < 2 ^ 64 := word_lt ..

theorem Heap.Chained.at (hc : h.Chained (front ++ b :: back)) :
    h.sizeAt b.addr = b.size ∧ Links h.bytes (h.nextAt b.addr) back 0 := by
  obtain ⟨r, _, _, hs, hl⟩ := links_append.1 hc.links
  exact ⟨hs, hl⟩

theorem Heap.Chained.nil (hh : h.freeListHead = 0) : h.Chained [] :=
  ⟨hh, ⟨fun _ hb => (nomatch hb), .nil⟩, fun _ hb => (nomatch hb), fun _ hb => (nomatch hb)⟩

theorem Heap.Chained.eq_nil (hc : h.Chained l) (hh : h.freeListHead = 0) : l = [] := by
  cases l with
  | nil => rfl
  | cons b l =>
    have hb := hc.links.1
    exact (hc.nonzero b (List.mem_cons_self ..) (hb.symm.trans hh)).elim

theorem Heap.Chained.congr (hc : h.Chained l) (hh : h'.freeListHead = h.freeListHead)
    (hm : ∀ a, Covers l a → h'.bytes a = h.bytes a) : h'.Chained l := by
  refine ⟨?_, hc.roomy, hc.nonzero, hc.below⟩
  rw [hh]
  exact hc.links.congr hc.roomy.room hm

theorem Heap.Chained.keep (hc : h.Chained l) (he : Edits b.Has h h')
    (hh : h'.freeListHead = h.freeListHead) (hap : ∀ c ∈ l, b.Apart c) : h'.Chained l := by
  apply hc.congr hh
  intro a hcov
  exact he.bytes a fun hba => Block.not_covers hap hba hcov

/-- The search for a place stops behind the blocks of lower address. -/
theorem findPlace_eq (hl : Links h.bytes p (front ++ back) 0)
    (hz : ∀ c ∈ front ++ back, c.addr ≠ 0) (hf : ∀ c ∈ front, c.addr < block)
    (hb : ∀ c ∈ back, block ≤ c.addr) (hn : front.length < fuel) :
    findPlace h block fuel prev p = .ok (lastAddr prev front) := by
  induction front generalizing p prev fuel with
  | nil =>
    obtain ⟨fuel, rfl⟩ := Nat.exists_eq_add_of_lt hn
    rw [findPlace, if_neg]
    · rfl
    · rintro ⟨hp, hlt⟩
      cases back with
      | nil => exact hp hl
      | cons c back =>
        have hc := hb c (List.mem_cons_self ..)
        rw [hl.1] at hlt
        omega
  | cons c front ih =>
    obtain ⟨fuel, rfl⟩ := Nat.exists_eq_add_of_lt hn
    obtain ⟨rfl, _, hl⟩ := hl
    obtain ⟨hc, hf⟩ := List.forall_mem_cons.1 hf
    obtain ⟨hzc, hz⟩ := List.forall_mem_cons.1 hz
    rw [findPlace, if_pos ⟨hzc, hc⟩]
    apply ih hl hz hf
    rw [List.length_cons] at *
    omega

/-- The first-fit search finds the first block that is large enough, or there is none. -/
theorem findFit_cases (total prev : Nat) (hl : Links h.bytes p l 0) (hz : ∀ c ∈ l, c.addr ≠ 0)
    (hn : l.length < fuel) :
    (findFit h total fuel prev p = .ok none ∧ ∀ c ∈ l, c.size < total) ∨
    ∃ front c back, l = front ++ c :: back ∧ total ≤ c.size ∧ (∀ d ∈ front, d.size < total) ∧
      findFit h total fuel prev p = .ok (some (lastAddr prev front, c.addr)) := by
  obtain ⟨fuel, rfl⟩ := Nat.exists_eq_add_of_lt (Nat.zero_lt_of_lt hn)
  rw [Nat.zero_add] at *
  induction l generalizing p prev fuel with
  | nil =>
    refine .inl ⟨?_, fun _ hc => (nomatch hc)⟩
    exact if_pos hl
  | cons c l ih =>
    obtain ⟨rfl, hs, hl⟩ := hl
    obtain ⟨hzc, hz⟩ := List.forall_mem_cons.1 hz
    have hsize : h.sizeAt c.addr = c.size := hs
    rw [findFit, if_neg hzc, hsize]
    by_cases hfit : total ≤ c.size
    · exact .inr ⟨[], c, l, rfl, hfit, fun _ hd => (nomatch hd), if_pos hfit⟩
    · have hlen : l.length < fuel := Nat.lt_of_succ_lt_succ hn
      obtain ⟨fuel, rfl⟩ := Nat.exists_eq_add_of_lt (Nat.zero_lt_of_lt hlen)
      rw [Nat.zero_add] at *
      rw [if_neg hfit]
      rcases ih _ hl hz fuel hlen with ⟨he, hall⟩ | ⟨front, d, back, rfl, hd, hfront, he⟩
      · exact .inl ⟨he, List.forall_mem_cons.2 ⟨Nat.lt_of_not_le hfit, hall⟩⟩
      · exact .inr ⟨c :: front, d, back, rfl, hd,
          List.forall_mem_cons.2 ⟨Nat.lt_of_not_le hfit, hfront⟩, he⟩

theorem setLink_spec (hl : Links h.bytes h.freeListHead front r) (hr : Roomy front)
    (hz : ∀ c ∈ front, c.addr ≠ 0) (hn : next < 2 ^ 64) :
    Links (setLink h (lastAddr 0 front) next).bytes
        (setLink h (lastAddr 0 front) next).freeListHead front next ∧
      Edits (Covers front) h (setLink h (lastAddr 0 front) next) := by
  rw [setLink]
  obtain rfl | ⟨f, d, rfl⟩ := List.eq_nil_or_concat' front
  · exact ⟨rfl, rfl, rfl, rfl, rfl, fun _ _ => rfl⟩
  · have hd : d ∈ f ++ [d] := List.mem_append_right _ (List.mem_singleton_self d)
    rw [lastAddr_snoc, if_neg (hz d hd)]
    exact ⟨hl.retarget hr hn, (Edits.setNext (hr.room d hd)).mono fun a ha => ⟨d, hd, ha⟩⟩

theorem insertBlock_eq (hl : Links h.bytes h.freeListHead front r)
    (hz : ∀ c ∈ front, c.addr ≠ 0) :
    insertBlock h (lastAddr 0 front) block =
      setLink (h.setNext block r) (lastAddr 0 front) block := by
  rw [insertBlock, setLink]
  obtain rfl | ⟨f, d, rfl⟩ := List.eq_nil_or_concat' front
  · rw [lastAddr, if_pos rfl, if_pos rfl, hl]
  · have hd : d ∈ f ++ [d] := List.mem_append_right _ (List.mem_singleton_self d)
    have hnext : h.nextAt d.addr = r := (links_snoc.1 hl).2.2
    rw [lastAddr_snoc, if_neg (hz d hd), if_neg (hz d hd), hnext]

/-- A block that does not lie in the free list is put between two parts of it. -/
theorem insertBlock_spec (hc : h.Chained (front ++ back)) (hr : Roomy (front ++ b :: back))
    (hz : b.addr ≠ 0) (hlt : b.stop < 2 ^ 64) (hs : h.sizeAt b.addr = b.size) :
    (insertBlock h (lastAddr 0 front) b.addr).Chained (front ++ b :: back) ∧
      Edits (Covers (front ++ [b])) h (insertBlock h (lastAddr 0 front) b.addr) := by
  obtain ⟨r, hl, hl'⟩ := links_append.1 hc.links
  obtain ⟨hzf, hzb⟩ := List.forall_mem_append.1 hc.nonzero
  obtain ⟨hbf, hbb⟩ := List.forall_mem_append.1 hc.below
  obtain ⟨hrf, hrb, hcross⟩ := roomy_append.1 hr
  obtain ⟨hroom, hrb, hgap⟩ := roomy_cons.1 hrb
  have hrlt := hl'.start_lt hbb
  have hset : Edits b.Has h (h.setNext b.addr r) := .setNext hroom
  have hfb : ∀ c ∈ front, b.Apart c := fun c hcf => .inr (hcross c hcf b (List.mem_cons_self ..))
  have hlf : Links (h.setNext b.addr r).bytes h.freeListHead front r :=
    hl.keep hrf.room hfb hset.bytes
  obtain ⟨hlink, hedit⟩ := setLink_spec (h := h.setNext b.addr r) hlf hrf hzf
    (Nat.lt_of_le_of_lt b.addr_le_stop hlt)
  rw [insertBlock_eq hl hzf]
  have hedits : Edits (Covers (front ++ [b])) h
      (setLink (h.setNext b.addr r) (lastAddr 0 front) b.addr) := by
    apply Edits.trans (hset.mono fun a ha => ?_) (hedit.mono fun a ha => ?_)
    · exact covers_append.2 (.inr ⟨b, List.mem_singleton_self b, ha⟩)
    · exact covers_append.2 (.inl ha)
  obtain ⟨hsize, hnext⟩ := words_congr hroom fun a ha =>
    hedit.bytes a (Block.not_covers hfb ha)
  refine ⟨⟨links_append.2 ⟨b.addr, hlink, rfl, ?_, ?_⟩, hr, ?_, ?_⟩, hedits⟩
  · rw [hsize]
    exact Heap.sizeAt_setNext.trans hs
  · rw [hnext]
    change Links _ ((h.setNext b.addr r).nextAt b.addr) back 0
    rw [Heap.nextAt_setNext hrlt]
    apply hl'.congr hrb.room
    intro a hcov
    apply hedits.bytes a (hcov.not_covers _)
    intro c hcb d hd
    rcases List.mem_append.1 hd with hd | hd
    · exact .inr (hcross d hd c (List.mem_cons_of_mem _ hcb))
    · rw [List.mem_singleton.1 hd]
      exact .inr (hgap c hcb)
  · exact List.forall_mem_append.2 ⟨hzf, List.forall_mem_cons.2 ⟨hz, hzb⟩⟩
  · exact List.forall_mem_append.2 ⟨hbf, List.forall_mem_cons.2 ⟨hlt, hbb⟩⟩

/-- A block takes in the next one when it stops where that one starts. -/
theorem mergeNext_spec (hc : h.Chained (front ++ b :: back)) :
    (mergeNext h b.addr).Chained (front ++ join b back) ∧ Edits b.Has h (mergeNext h b.addr) := by
  obtain ⟨hs, hl⟩ := hc.at
  have hb : b ∈ front ++ b :: back := by simp
  have hroom := hc.roomy.room b hb
  have hblt := hc.below b hb
  have hstop : b.stop = b.addr + b.size := rfl
  cases back with
  | nil =>
    have hnext : h.nextAt b.addr = 0 := hl
    have hno : mergeNext h b.addr = h := if_neg fun hn => hn.1 hnext
    rw [hno]
    exact ⟨hc, .refl⟩
  | cons c back =>
    have hcm : c ∈ front ++ b :: c :: back := by simp
    have hnext : h.nextAt b.addr = c.addr := hl.1
    have hclt := hc.below c hcm
    have hcstop : c.stop = c.addr + c.size := rfl
    rw [mergeNext, hs, hnext, ← hstop, u64_of_lt hblt, join]
    by_cases he : b.stop = c.addr
    · have hcs : h.sizeAt c.addr = c.size := hl.2.1
      have hsum : b.size + c.size < 2 ^ 64 := by omega
      have hcn : (h.setSize b.addr (b.size + c.size)).nextAt c.addr = h.nextAt c.addr :=
        word_setWord_of_apart (by omega)
      rw [if_pos ⟨hc.nonzero c hcm, he⟩, if_pos he, hcs, u64_of_lt hsum]
      dsimp only
      rw [Heap.nextAt_setSize, hnext, hcn]
      have hroomy := hc.roomy.join
      rw [join, if_pos he] at hroomy
      refine ⟨⟨hc.links.absorb hc.roomy hsum (h.nextAt_lt _), hroomy, ?_, ?_⟩,
        (Edits.setSize hroom).trans (Edits.setNext hroom)⟩
      · intro d hd
        rcases List.mem_append.1 hd with hd | hd
        · exact hc.nonzero d (List.mem_append_left _ hd)
        · rcases List.mem_cons.1 hd with rfl | hd
          · exact hc.nonzero b hb
          · exact hc.nonzero d (by simp [hd])
      · intro d hd
        rcases List.mem_append.1 hd with hd | hd
        · exact hc.below d (List.mem_append_left _ hd)
        · rcases List.mem_cons.1 hd with rfl | hd
          · simp only [Block.stop]
            omega
          · exact hc.below d (by simp [hd])
    · rw [if_neg fun hn => he hn.2, if_neg he]
      exact ⟨hc, .refl⟩

theorem mergePrev_eq (hp : prev ≠ 0) (hb : block ≠ 0) (hn : h.nextAt prev = block) :
    mergePrev h prev block = mergeNext h prev := by
  rw [mergePrev, mergeNext, hn]
  by_cases he : u64 (prev + h.sizeAt prev) = block
  · rw [if_pos ⟨hp, he⟩, if_pos ⟨hb, he⟩]
    dsimp only
    rw [Heap.nextAt_setSize, hn]
  · rw [if_neg fun h => he h.2, if_neg fun h => he h.2]

theorem mergePrev_zero : mergePrev h 0 block = h := by
  rw [mergePrev, if_neg]
  intro hno
  exact hno.1 rfl

/-- The insertion and the merges behind a block that lies in front of `b`, or at the head. -/
theorem linkBlock_chained (hc : h.Chained (front ++ back)) (hsp : Spaced front)
    (hr : Roomy (front ++ b :: back)) (hf : ∀ c ∈ front, c.addr < b.addr)
    (hb : ∀ c ∈ back, b.addr ≤ c.addr) (hz : b.addr ≠ 0) (hlt : b.stop < 2 ^ 64)
    (hs : h.sizeAt b.addr = b.size) :
    (linkBlock h (lastAddr 0 front) b.addr).Chained (place b (front ++ back)) ∧
      Edits (Covers (b :: (front ++ back))) h (linkBlock h (lastAddr 0 front) b.addr) := by
  obtain ⟨hins, hedit⟩ := insertBlock_spec hc hr hz hlt hs
  obtain ⟨hmerge, hedit'⟩ := mergeNext_spec hins
  have hfb : ∀ c ∈ front, c.stop ≤ b.addr := fun c hcf =>
    (roomy_append.1 hr).2.2 c hcf b (List.mem_cons_self ..)
  have hedits : Edits (Covers (b :: (front ++ back))) h
      (mergeNext (insertBlock h (lastAddr 0 front) b.addr) b.addr) := by
    apply (hedit.mono _).trans (hedit'.mono _)
    · intro a hcov
      obtain ⟨c, hcm, hca⟩ := hcov
      refine ⟨c, ?_, hca⟩
      rcases List.mem_append.1 hcm with hcm | hcm
      · exact List.mem_cons_of_mem _ (List.mem_append_left _ hcm)
      · rw [List.mem_singleton.1 hcm]
        exact List.mem_cons_self ..
    · intro a ha
      exact ⟨b, List.mem_cons_self .., ha⟩
  rw [linkBlock]
  obtain rfl | ⟨f, d, rfl⟩ := List.eq_nil_or_concat' front
  · have hfb' : ∀ c ∈ ([] : List Block), c.stop < b.addr := fun _ hcf => nomatch hcf
    have hplace := place_append hfb' hb
    rw [List.nil_append] at hplace
    rw [lastAddr] at hmerge hedits
    rw [lastAddr, mergePrev_zero, List.nil_append, hplace]
    exact ⟨hmerge, hedits⟩
  · have hd : d ∈ f ++ [d] := List.mem_append_right _ (List.mem_singleton_self d)
    have hbefore : ∀ c ∈ f, c.stop < d.addr := by
      exact fun c hcf => (spaced_append.1 hsp).2.2 c hcf d (List.mem_singleton_self d)
    obtain ⟨x, rest, hjoin, hx⟩ := join_eq b back
    rw [lastAddr_snoc] at hmerge hedits
    rw [List.append_assoc, List.singleton_append] at hmerge
    rw [List.append_assoc, List.singleton_append, place_after hbefore (hf d hd) (hfb d hd) hb,
      lastAddr_snoc]
    have hnext : (mergeNext (insertBlock h d.addr b.addr) b.addr).nextAt d.addr = b.addr := by
      have hlinks := hmerge.at.2
      rw [hjoin] at hlinks
      exact hlinks.1.trans hx
    obtain ⟨hmerge', hedit''⟩ := mergeNext_spec hmerge
    have hdz : d.addr ≠ 0 := hc.nonzero d (List.mem_append_left _ hd)
    rw [List.append_assoc, List.singleton_append] at hedits
    rw [mergePrev_eq hdz hz hnext]
    exact ⟨hmerge', hedits.trans (hedit''.mono fun a ha => ⟨d, by simp, ha⟩)⟩

/-- `kfree` and the growth of the heap put a block in its place in the free list. -/
theorem linkBlock_spec (hc : h.Chained l) (hsp : Spaced l) (hap : ∀ c ∈ l, b.Apart c)
    (hroom : 16 ≤ b.size) (hz : b.addr ≠ 0) (hlt : b.stop < 2 ^ 64) (hn : l.length < fuel) :
    ∃ prev, findPlace h b.addr fuel 0 h.freeListHead = .ok prev ∧
      ∀ g : Heap σ, g.Chained l → g.sizeAt b.addr = b.size →
        (linkBlock g prev b.addr).Chained (place b l) ∧
          Edits (Covers (b :: l)) g (linkBlock g prev b.addr) := by
  obtain ⟨front, back, rfl, hf, hb⟩ := hsp.split b.addr
  obtain ⟨hapf, hapb⟩ := List.forall_mem_append.1 hap
  obtain ⟨hrf, hrb, hcross⟩ := roomy_append.1 hc.roomy
  have hroomy : Roomy (front ++ b :: back) := by
    refine roomy_append.2 ⟨hrf, roomy_cons.2 ⟨hroom, hrb, fun c hcb => ?_⟩, fun c hcf => ?_⟩
    · have hca := hb c hcb
      have hcs : c.stop = c.addr + c.size := rfl
      have hcr := hrb.room c hcb
      rcases hapb c hcb with ha | ha
      · exact ha
      · omega
    · refine List.forall_mem_cons.2 ⟨?_, hcross c hcf⟩
      have hca := hf c hcf
      have hbs := b.addr_le_stop
      rcases hapf c hcf with ha | ha
      · omega
      · exact ha
  refine ⟨lastAddr 0 front, findPlace_eq hc.links hc.nonzero hf hb ?_, fun g hg hs => ?_⟩
  · rw [List.length_append] at hn
    omega
  · exact linkBlock_chained hg (spaced_append.1 hsp).1 hroomy hf hb hz hlt hs

/-- A block between two parts of the free list is passed over by it from now on. -/
theorem unlink_spec (hl : Links h.bytes h.freeListHead front b.addr)
    (hl' : Links h.bytes r back 0) (hr : Roomy (front ++ b :: back))
    (hz : ∀ c ∈ front ++ back, c.addr ≠ 0) (hlt : ∀ c ∈ front ++ back, c.stop < 2 ^ 64)
    (hs : h.sizeAt b.addr = b.size) (he : h' = setLink h (lastAddr 0 front) r) :
    (h'.setSize b.addr (h'.sizeAt b.addr)).Chained (front ++ back) ∧
      (h'.setSize b.addr (h'.sizeAt b.addr)).sizeAt b.addr = b.size ∧
      Edits (Covers (front ++ [b])) h (h'.setSize b.addr (h'.sizeAt b.addr)) := by
  obtain ⟨hrf, hrb, hcross⟩ := roomy_append.1 hr
  obtain ⟨hroom, hrb, hgap⟩ := roomy_cons.1 hrb
  have hrlt := hl'.start_lt (List.forall_mem_append.1 hlt).2
  obtain ⟨hlink, hedit⟩ := setLink_spec hl hrf (List.forall_mem_append.1 hz).1 hrlt
  rw [← he] at hlink hedit
  have hbf : ∀ c ∈ front, b.Apart c := fun c hcf => .inr (hcross c hcf b (List.mem_cons_self ..))
  have hsize : h'.sizeAt b.addr = b.size := by
    rw [← hs]
    exact (words_congr hroom fun a ha => hedit.bytes a (Block.not_covers hbf ha)).1
  have hblt : b.size < 2 ^ 64 := by
    rw [← hs]
    exact h.sizeAt_lt _
  have hset : Edits b.Has h' (h'.setSize b.addr b.size) := .setSize hroom
  rw [hsize]
  refine ⟨⟨links_append.2 ⟨r, ?_, ?_⟩, ?_, hz, hlt⟩, Heap.sizeAt_setSize hblt, ?_⟩
  · exact hlink.keep hrf.room hbf hset.bytes
  · have hkept : Links h'.bytes r back 0 := by
      apply hl'.congr hrb.room
      intro a hcov
      apply hedit.bytes a (hcov.not_covers _)
      intro c hcb d hdf
      exact .inr (hcross d hdf c (List.mem_cons_of_mem _ hcb))
    exact hkept.keep hrb.room (fun c hcb => .inl (hgap c hcb)) hset.bytes
  · refine roomy_append.2 ⟨hrf, hrb, fun c hcf d hdb => ?_⟩
    exact hcross c hcf d (List.mem_cons_of_mem _ hdb)
  · apply (hedit.mono fun a ha => ?_).trans (hset.mono fun a ha => ?_)
    · exact covers_append.2 (.inl ha)
    · exact covers_append.2 (.inr ⟨b, List.mem_singleton_self b, ha⟩)

theorem takeBlock_whole (hc : h.Chained (front ++ c :: back)) (hlt : c.size < total + 16)
    (ht : total + 16 < 2 ^ 64) :
    (takeBlock h total (lastAddr 0 front) c.addr).Chained (front ++ back) ∧
      (takeBlock h total (lastAddr 0 front) c.addr).sizeAt c.addr = c.size ∧
      Edits (Covers (front ++ [c])) h (takeBlock h total (lastAddr 0 front) c.addr) := by
  obtain ⟨hs, hl'⟩ := hc.at
  obtain ⟨r, hl, rfl, _, _⟩ := links_append.1 hc.links
  have hsub : ∀ d ∈ front ++ back, d ∈ front ++ c :: back := by
    intro d hd
    rcases List.mem_append.1 hd with hd | hd
    · exact List.mem_append_left _ hd
    · exact List.mem_append_right _ (List.mem_cons_of_mem _ hd)
  have htotal : u64 (total + minAllocSize) = total + 16 := u64_of_lt ht
  rw [takeBlock, hs, htotal, if_neg (Nat.not_le_of_lt hlt)]
  exact unlink_spec hl hl' hc.roomy (fun d hd => hc.nonzero d (hsub d hd))
    (fun d hd => hc.below d (hsub d hd)) hs rfl

theorem carve_spec (hlt : c.stop < 2 ^ 64) (hle : total + 16 ≤ c.size) (ht : 16 ≤ total)
    (hd : d = ⟨c.addr + total, c.size - total⟩) (hn : next < 2 ^ 64)
    (he : h' = ((h.setSize d.addr d.size).setNext d.addr next).setSize c.addr total) :
    Edits c.Has h h' ∧ h'.freeListHead = h.freeListHead ∧ h'.sizeAt c.addr = total ∧
      h'.sizeAt d.addr = d.size ∧ h'.nextAt d.addr = next := by
  have hcstop : c.stop = c.addr + c.size := rfl
  have hda : d.addr = c.addr + total := by rw [hd]
  have hds : d.size = c.size - total := by rw [hd]
  have h₁ : Edits c.Has h (h.setSize d.addr d.size) := .setWord (by omega) (by omega)
  have h₂ : Edits c.Has (h.setSize d.addr d.size)
      ((h.setSize d.addr d.size).setNext d.addr next) := .setWord (by omega) (by omega)
  have h₃ : Edits c.Has ((h.setSize d.addr d.size).setNext d.addr next)
      (((h.setSize d.addr d.size).setNext d.addr next).setSize c.addr total) :=
    .setWord (by omega) (by omega)
  have hapart : c.addr + 8 ≤ d.addr := by omega
  rw [he]
  refine ⟨(h₁.trans h₂).trans h₃, rfl, Heap.sizeAt_setSize (by omega), ?_, ?_⟩
  · refine (word_setWord_of_apart (.inl hapart)).trans (Heap.sizeAt_setNext.trans ?_)
    exact Heap.sizeAt_setSize (by omega)
  · exact (word_setWord_of_apart (by omega)).trans (Heap.nextAt_setNext hn)

/-- A larger block leaves its end in the free list. -/
theorem takeBlock_split (hc : h.Chained (front ++ c :: back)) (hle : total + 16 ≤ c.size)
    (ht : 16 ≤ total) :
    (takeBlock h total (lastAddr 0 front) c.addr).Chained
        (front ++ ⟨c.addr + total, c.size - total⟩ :: back) ∧
      (takeBlock h total (lastAddr 0 front) c.addr).sizeAt c.addr = total ∧
      Edits (Covers (front ++ [c])) h (takeBlock h total (lastAddr 0 front) c.addr) := by
  obtain ⟨hs, hl'⟩ := hc.at
  obtain ⟨r, hl, rfl, _, _⟩ := links_append.1 hc.links
  obtain ⟨hrf, hrb, hcross⟩ := roomy_append.1 hc.roomy
  obtain ⟨hroom, hrb, hgap⟩ := roomy_cons.1 hrb
  have hcm : c ∈ front ++ c :: back := by simp
  have hclt := hc.below c hcm
  have hcstop : c.stop = c.addr + c.size := rfl
  have htotal : u64 (total + minAllocSize) = total + 16 := u64_of_lt (by
    have hmin : minAllocSize = 16 := rfl
    omega)
  rw [takeBlock, hs, htotal, if_pos hle]
  dsimp only
  rw [u64_of_lt (show c.addr + total < 2 ^ 64 by omega), sub64_of_le (by omega) (by omega)]
  generalize hx : (⟨c.addr + total, c.size - total⟩ : Block) = x
  have hxa : c.addr + total = x.addr := by rw [← hx]
  have hxs : c.size - total = x.size := by rw [← hx]
  have hxstop : x.stop = c.stop := by
    simp only [Block.stop]
    omega
  have hnext : (h.setSize x.addr x.size).nextAt c.addr = h.nextAt c.addr :=
    word_setWord_of_apart (by omega)
  rw [hxa, hxs, hnext]
  generalize he : ((h.setSize x.addr x.size).setNext x.addr (h.nextAt c.addr)).setSize
    c.addr total = h₃
  obtain ⟨hedit, hhead, hsize, hxsize, hxnext⟩ := carve_spec hclt hle ht hx.symm (h.nextAt_lt _)
    he.symm
  have hlf : Links h₃.bytes h₃.freeListHead front c.addr := by
    rw [hhead]
    apply hl.keep hrf.room (fun d hd => ?_) hedit.bytes
    exact .inr (hcross d hd c (List.mem_cons_self ..))
  have hlx : Links h₃.bytes x.addr (x :: back) 0 := by
    refine ⟨rfl, hxsize, ?_⟩
    change Links h₃.bytes (h₃.nextAt x.addr) back 0
    rw [hxnext]
    exact hl'.keep hrb.room (fun d hd => .inl (hgap d hd)) hedit.bytes
  have hroomy := hc.roomy.split ht hle
  rw [hx] at hroomy
  have hmem : ∀ d ∈ front ++ x :: back, d = x ∨ d ∈ front ++ c :: back := by
    intro d hd
    rcases List.mem_append.1 hd with hd | hd
    · exact .inr (List.mem_append_left _ hd)
    · rcases List.mem_cons.1 hd with rfl | hd
      · exact .inl rfl
      · exact .inr (List.mem_append_right _ (List.mem_cons_of_mem _ hd))
  obtain ⟨hlist, hheader, hedits⟩ := unlink_spec (b := ⟨c.addr, total⟩) hlf hlx hroomy
    (fun d hd => by
      rcases hmem d hd with rfl | hd
      · omega
      · exact hc.nonzero d hd)
    (fun d hd => by
      rcases hmem d hd with rfl | hd
      · rwa [hxstop]
      · exact hc.below d hd) hsize rfl
  refine ⟨hlist, hheader, (hedit.mono fun a ha => ⟨c, by simp, ha⟩).trans (hedits.mono ?_)⟩
  intro a ha
  rcases covers_append.1 ha with ha | ⟨d, hd, hda⟩
  · exact covers_append.2 (.inl ha)
  · obtain rfl := List.mem_singleton.1 hd
    obtain ⟨hle', hlt'⟩ := hda
    refine covers_append.2 (.inr ⟨c, List.mem_singleton_self c, hle', ?_⟩)
    simp only [Block.stop] at *
    omega

theorem edits_anywhere (m : ByteMem.Mem) (head : Nat) :
    Edits (fun _ => True) h { h with bytes := m, freeListHead := head } :=
  ⟨rfl, rfl, rfl, rfl, fun _ ha => (ha trivial).elim⟩

theorem insertBlock_edits (h : Heap σ) (prev block : Nat) :
    Edits (fun _ => True) h (insertBlock h prev block) := by
  rw [insertBlock]
  split
  · exact edits_anywhere ..
  · exact edits_anywhere ..

theorem mergeNext_edits (h : Heap σ) (block : Nat) :
    Edits (fun _ => True) h (mergeNext h block) := by
  rw [mergeNext]
  split
  · exact edits_anywhere ..
  · exact .refl

theorem mergePrev_edits (h : Heap σ) (prev block : Nat) :
    Edits (fun _ => True) h (mergePrev h prev block) := by
  rw [mergePrev]
  split
  · exact edits_anywhere ..
  · exact .refl

theorem linkBlock_edits (h : Heap σ) (prev block : Nat) :
    Edits (fun _ => True) h (linkBlock h prev block) :=
  ((insertBlock_edits h prev block).trans (mergeNext_edits _ block)).trans
    (mergePrev_edits _ prev block)

theorem takeBlock_edits (h : Heap σ) (total prev current : Nat) :
    Edits (fun _ => True) h (takeBlock h total prev current) := by
  have hlink : ∀ (g : Heap σ) next, Edits (fun _ => True) g (setLink g prev next) := by
    intro g next
    rw [setLink]
    split
    · exact edits_anywhere ..
    · exact edits_anywhere ..
  rw [takeBlock]
  dsimp only
  split
  · exact ((edits_anywhere _ _).trans (hlink _ _)).trans (edits_anywhere _ _)
  · exact (hlink _ _).trans (edits_anywhere _ _)

theorem addRegion_edits (h₀ : addRegion h base n = .ok h') :
    Edits (fun _ => True) h h' := by
  rw [addRegion] at h₀
  split at h₀
  · cases h₀
    exact edits_anywhere ..
  · obtain ⟨prev, _, h₀⟩ := bind_ok h₀
    cases h₀
    exact (edits_anywhere _ _).trans (linkBlock_edits _ prev base)

theorem kfree_edits (h₀ : kfree h ptr = .ok h') : Edits (fun _ => True) h h' := by
  rw [kfree] at h₀
  split at h₀
  · cases h₀
    exact .refl
  · dsimp only at h₀
    split at h₀
    · cases h₀
    · split at h₀
      · cases h₀
      · split at h₀
        · cases h₀
        · obtain ⟨prev, _, h₀⟩ := bind_ok h₀
          cases h₀
          exact (edits_anywhere _ _).trans (linkBlock_edits ..)

end AdaOS
