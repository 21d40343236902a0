import Mathlib.Algebra.GroupWithZero.Nat
import Mathlib.Algebra.Order.BigOperators.Group.List
import Mathlib.Data.List.Chain
import Mathlib.Order.Interval.Finset.Nat
import AdaOS.Descriptor
import AdaOS.PmmClimb

namespace AdaOS
set_option autoImplicit true

variable {c : Chunk} {chunks : List Chunk} {e : MemmapEntry}
  {done entries memmap : List MemmapEntry}

def Chunk.Has (c : Chunk) (a : Nat) : Prop := c.base ≤ a ∧ a < c.bounds

def MemmapEntry.Has (e : MemmapEntry) (a : Nat) : Prop := e.base ≤ a ∧ a < e.base + e.length

/-- A map as the bootloader sorts it, whose entries share no address and end below 2^64. -/
structure WellSorted (memmap : List MemmapEntry) : Prop where
  sorted : memmap.Pairwise fun e f => e.base ≤ f.base
  disjoint : memmap.Pairwise fun e f => ∀ a, ¬(e.Has a ∧ f.Has a)
  ends : ∀ e ∈ memmap, e.base + e.length < 2 ^ 64

/-- The free bytes of the map, without wrap-around. -/
def freeTotal (memmap : List MemmapEntry) : Nat :=
  ((memmap.filter (isMemoryFree ·.type)).map (·.length)).sum

def Chunk.size (c : Chunk) : Nat := c.bounds - c.base

/-- What the chunks, newest first, say about the entries merged into them. -/
structure Merged (done : List MemmapEntry) (chunks : List Chunk) : Prop where
  ordered : ∀ c ∈ chunks, c.base ≤ c.bounds
  started : ∀ c ∈ chunks, ∃ e ∈ done, e.base = c.base
  covers : ∀ a, (∃ c ∈ chunks, c.Has a) ↔ ∃ e ∈ done, isMemoryFree e.type = true ∧ e.Has a
  ascending : chunks.Pairwise fun d c => c.base ≤ d.base
  disjoint : chunks.Pairwise fun d c => ∀ a, ¬(c.Has a ∧ d.Has a)
  gaps : chunks.IsChain fun d c => c.bounds ≠ d.base
  total : (chunks.map Chunk.size).sum = freeTotal done

theorem Merged.nil : Merged [] [] where
  ordered := fun _ h => nomatch h
  started := fun _ h => nomatch h
  covers := fun _ => ⟨fun ⟨_, h, _⟩ => (nomatch h), fun ⟨_, h, _⟩ => (nomatch h)⟩
  ascending := .nil
  disjoint := .nil
  gaps := .nil
  total := rfl

theorem freeTotal_concat_free (hf : isMemoryFree e.type = true) :
    freeTotal (done ++ [e]) = freeTotal done + e.length := by
  simp [freeTotal, hf]

theorem freeTotal_concat_used (hf : isMemoryFree e.type = false) :
    freeTotal (done ++ [e]) = freeTotal done := by
  simp [freeTotal, hf]

theorem exists_mem_concat {p : MemmapEntry → Prop} :
    (∃ f ∈ done ++ [e], p f) ↔ (∃ f ∈ done, p f) ∨ p e := by
  simp [or_and_right, exists_or]

theorem exists_mem_cons {p : Chunk → Prop} :
    (∃ d ∈ c :: chunks, p d) ↔ p c ∨ ∃ d ∈ chunks, p d := by
  simp [or_and_right, exists_or]

theorem Merged.skip (h : Merged done chunks) (hf : isMemoryFree e.type = false) :
    Merged (done ++ [e]) chunks := by
  refine ⟨h.ordered, fun c hc => ?_, fun a => ?_, h.ascending, h.disjoint, h.gaps, ?_⟩
  · obtain ⟨f, hm, hb⟩ := h.started c hc
    exact ⟨f, List.mem_append_left _ hm, hb⟩
  · rw [exists_mem_concat, h.covers a, hf]
    simp
  · rw [freeTotal_concat_used hf]
    exact h.total

/-- An entry past all the others that starts a chunk of its own. -/
theorem Merged.start (h : Merged done chunks) (hf : isMemoryFree e.type = true)
    (hsorted : ∀ f ∈ done, f.base ≤ e.base) (hapart : ∀ f ∈ done, ∀ a, ¬(f.Has a ∧ e.Has a))
    (hend : e.base + e.length < 2 ^ 64) (hgap : ∀ c ∈ chunks.head?, c.bounds ≠ e.base) :
    Merged (done ++ [e]) (⟨e.base, u64 (e.base + e.length)⟩ :: chunks) := by
  rw [u64_of_lt hend]
  refine ⟨List.forall_mem_cons.2 ⟨Nat.le_add_right _ _, h.ordered⟩,
    List.forall_mem_cons.2 ⟨⟨e, List.mem_append_right _ (List.mem_singleton.2 rfl), rfl⟩, ?_⟩,
    fun a => ?_, List.pairwise_cons.2 ⟨fun c hc => ?_, h.ascending⟩,
    List.pairwise_cons.2 ⟨fun c hc a ha => ?_, h.disjoint⟩, List.isChain_cons.2 ⟨hgap, h.gaps⟩, ?_⟩
  · intro c hc
    obtain ⟨f, hm, hb⟩ := h.started c hc
    exact ⟨f, List.mem_append_left _ hm, hb⟩
  · rw [exists_mem_concat, ← h.covers a, exists_mem_cons, or_comm]
    simp only [Chunk.Has, MemmapEntry.Has, hf, true_and]
  · obtain ⟨f, hm, hb⟩ := h.started c hc
    rw [← hb]
    exact hsorted f hm
  · obtain ⟨f, hm, hfree, hfa⟩ := (h.covers a).1 ⟨c, hc, ha.1⟩
    exact hapart f hm a ⟨hfa, ha.2⟩
  · rw [freeTotal_concat_free hf, List.map_cons, List.sum_cons, h.total, Chunk.size]
    simp only
    omega

/-- An entry past all the others that makes the newest chunk longer. -/
theorem Merged.extend (h : Merged done (c :: chunks)) (hf : isMemoryFree e.type = true)
    (hapart : ∀ f ∈ done, ∀ a, ¬(f.Has a ∧ e.Has a)) (hend : e.base + e.length < 2 ^ 64)
    (hb : c.bounds = e.base) :
    Merged (done ++ [e]) (⟨c.base, u64 (e.base + e.length)⟩ :: chunks) := by
  rw [u64_of_lt hend]
  obtain ⟨ho, hos⟩ := List.forall_mem_cons.1 h.ordered
  obtain ⟨hlow, hasc⟩ := List.pairwise_cons.1 h.ascending
  obtain ⟨hdis, hdiss⟩ := List.pairwise_cons.1 h.disjoint
  obtain ⟨hgap, hgaps⟩ := List.isChain_cons.1 h.gaps
  have hgrown : ∀ a, Chunk.Has ⟨c.base, e.base + e.length⟩ a ↔ c.Has a ∨ e.Has a := by
    intro a
    simp only [Chunk.Has, MemmapEntry.Has]
    omega
  refine ⟨List.forall_mem_cons.2 ⟨by simp only; omega, hos⟩, fun d hd => ?_, fun a => ?_,
    List.pairwise_cons.2 ⟨hlow, hasc⟩, List.pairwise_cons.2 ⟨fun d hd a ha => ?_, hdiss⟩,
    List.isChain_cons.2 ⟨hgap, hgaps⟩, ?_⟩
  · have hbase : ∃ d' ∈ c :: chunks, d'.base = d.base := by
      rcases List.mem_cons.1 hd with rfl | hd
      · exact ⟨c, List.mem_cons_self .., rfl⟩
      · exact ⟨d, List.mem_cons_of_mem _ hd, rfl⟩
    obtain ⟨d', hd', he⟩ := hbase
    obtain ⟨f, hm, hfb⟩ := h.started d' hd'
    exact ⟨f, List.mem_append_left _ hm, hfb.trans he⟩
  · rw [exists_mem_concat, ← h.covers a, exists_mem_cons, exists_mem_cons, hgrown, hf]
    simp only [true_and]
    exact or_right_comm
  · rcases (hgrown a).1 ha.2 with hca | hea
    · exact hdis d hd a ⟨ha.1, hca⟩
    · obtain ⟨f, hm, _, hfa⟩ := (h.covers a).1 ⟨d, List.mem_cons_of_mem _ hd, ha.1⟩
      exact hapart f hm a ⟨hfa, hea⟩
  · have ht := h.total
    rw [freeTotal_concat_free hf, ← ht, List.map_cons, List.map_cons, List.sum_cons,
      List.sum_cons]
    simp only [Chunk.size]
    omega

theorem Merged.step (h : Merged done chunks) (hsorted : ∀ f ∈ done, f.base ≤ e.base)
    (hapart : ∀ f ∈ done, ∀ a, ¬(f.Has a ∧ e.Has a)) (hend : e.base + e.length < 2 ^ 64) :
    Merged (done ++ [e]) (mergeEntry chunks e) := by
  unfold mergeEntry
  split
  · next hf =>
    cases chunks with
    | nil => exact h.start hf hsorted hapart hend fun _ hc => nomatch hc
    | cons c cs =>
      simp only
      split
      · next hb => exact h.extend hf hapart hend hb
      · next hb =>
        refine h.start hf hsorted hapart hend fun c' hc => ?_
        cases hc
        exact hb
  · next hf => exact h.skip (eq_false_of_ne_true hf)

theorem Merged.run (h : Merged done chunks) (hw : WellSorted (done ++ entries)) :
    Merged (done ++ entries) (entries.foldl mergeEntry chunks) := by
  induction entries generalizing done chunks with
  | nil =>
    rw [List.append_nil]
    exact h
  | cons e entries ih =>
    have hsplit : done ++ e :: entries = (done ++ [e]) ++ entries := by simp
    have hs := (List.pairwise_append.1 hw.sorted).2.2
    have hd := (List.pairwise_append.1 hw.disjoint).2.2
    have he := hw.ends e (List.mem_append_right _ (List.mem_cons_self ..))
    rw [hsplit] at hw ⊢
    exact ih (h.step (fun f hf => hs f hf e (List.mem_cons_self ..))
      (fun f hf => hd f hf e (List.mem_cons_self ..)) he) hw

theorem WellSorted.merged (hw : WellSorted memmap) : Merged memmap (foundChunks memmap) :=
  Merged.nil.run hw

def span (memmap : List MemmapEntry) : Finset Nat :=
  memmap.foldr (fun e s => Finset.Ico e.base (e.base + e.length) ∪ s) ∅

theorem mem_span : a ∈ span memmap ↔ ∃ e ∈ memmap, e.Has a := by
  induction memmap with
  | nil => simp [span]
  | cons e memmap ih =>
    rw [span, List.foldr_cons, Finset.mem_union, Finset.mem_Ico, ← span, ih]
    simp [or_and_right, exists_or, MemmapEntry.Has]

theorem span_card (h : memmap.Pairwise fun e f => ∀ a, ¬(e.Has a ∧ f.Has a)) :
    (span memmap).card = (memmap.map (·.length)).sum := by
  induction memmap with
  | nil => rfl
  | cons e memmap ih =>
    obtain ⟨he, h⟩ := List.pairwise_cons.1 h
    have hdis : Disjoint (Finset.Ico e.base (e.base + e.length)) (span memmap) := by
      rw [Finset.disjoint_left]
      intro a hea hrest
      obtain ⟨f, hf, hfa⟩ := mem_span.1 hrest
      exact he f hf a ⟨Finset.mem_Ico.1 hea, hfa⟩
    rw [span, List.foldr_cons, ← span, Finset.card_union_of_disjoint hdis, ih h, List.map_cons,
      List.sum_cons, Nat.card_Ico, Nat.add_sub_cancel_left]

theorem freeTotal_lt (hw : WellSorted memmap) : freeTotal memmap < 2 ^ 64 := by
  have hd := hw.disjoint.filter (isMemoryFree ·.type)
  have hsub : span (memmap.filter (isMemoryFree ·.type)) ⊆ Finset.range (2 ^ 64 - 1) := by
    intro a ha
    obtain ⟨e, he, hea⟩ := mem_span.1 ha
    have hend := hw.ends e (List.mem_of_mem_filter he)
    rw [Finset.mem_range]
    simp only [MemmapEntry.Has] at hea
    omega
  have hle := Finset.card_le_card hsub
  rw [span_card hd, Finset.card_range] at hle
  rw [freeTotal]
  omega

theorem freeLength_fold (hn : n < 2 ^ 64) :
    memmap.foldl freeLength n = u64 (n + freeTotal memmap) := by
  induction memmap generalizing n with
  | nil => exact (u64_of_lt hn).symm
  | cons e memmap ih =>
    rw [List.foldl_cons, freeLength]
    cases hf : isMemoryFree e.type with
    | false =>
      have ht : freeTotal (e :: memmap) = freeTotal memmap := by simp [freeTotal, hf]
      rw [if_neg Bool.false_ne_true, ih hn, ht]
    | true =>
      have ht : freeTotal (e :: memmap) = e.length + freeTotal memmap := by simp [freeTotal, hf]
      have hlt : u64 (n + e.length) < 2 ^ 64 := Nat.mod_lt _ (by decide)
      rw [if_pos rfl, ih hlt, ht, ← Nat.add_assoc, u64, u64, u64,
        Nat.mod_add_mod]

/-- The free memory, as chunks that are as long as they can be, whatever the array held before.
Entries of length 0 are allowed anywhere. -/
theorem getMemoryDescriptor_exact (stale : Vector Chunk maxChunks) (hw : WellSorted memmap)
    (hcount : (foundChunks memmap).length ≤ maxChunks) :
    ∃ d freeChunks, getMemoryDescriptorIn stale memmap = .ok (d, freeChunks) ∧
      d.chunkCount = d.chunkPtr.length ∧ (∀ c ∈ d.chunkPtr, c.base ≤ c.bounds) ∧
      d.chunkPtr.Pairwise (fun c c' => c.base ≤ c'.base) ∧
      d.chunkPtr.Pairwise (fun c c' => ∀ a, ¬(c.Has a ∧ c'.Has a)) ∧
      d.chunkPtr.IsChain (fun c c' => c.bounds ≠ c'.base) ∧
      (∀ a, (∃ c ∈ d.chunkPtr, c.Has a) ↔
        ∃ e ∈ memmap, isMemoryFree e.type = true ∧ e.Has a) ∧
      d.length = freeTotal memmap ∧ d.length = (d.chunkPtr.map Chunk.size).sum ∧
      getMemoryDescriptorIn freeChunks memmap = .ok (d, freeChunks) := by
  have hm := hw.merged
  have hlen : memmap.foldl freeLength 0 = freeTotal memmap := by
    rw [freeLength_fold (by decide), Nat.zero_add, u64_of_lt (freeTotal_lt hw)]
  have hd := getMemoryDescriptor_eq hcount
  rcases getMemoryDescriptorIn_cases stale memmap with ⟨d, freeChunks, he, hd', _⟩ | ⟨_, hno⟩
  · rw [hd] at hd'
    cases hd'
    refine ⟨_, freeChunks, he, List.length_reverse.symm,
      fun c hc => hm.ordered c (List.mem_reverse.1 hc), List.pairwise_reverse.2 hm.ascending,
      List.pairwise_reverse.2 hm.disjoint, List.isChain_reverse.2 hm.gaps, fun a => ?_, hlen, ?_,
      getMemoryDescriptorIn_twice he⟩
    · rw [← hm.covers a]
      simp only [List.mem_reverse]
    · rw [List.map_reverse, List.sum_reverse, hm.total]
      exact hlen
  · rw [hd] at hno
    cases hno

theorem WellSorted.of_ends (h : memmap.Pairwise fun e f => e.base + e.length ≤ f.base)
    (hends : ∀ e ∈ memmap, e.base + e.length < 2 ^ 64) : WellSorted memmap where
  sorted := h.imp fun hle => Nat.le_trans (Nat.le_add_right _ _) hle
  disjoint := h.imp fun hle a ha => by
    simp only [MemmapEntry.Has] at ha
    omega
  ends := hends

theorem getMemoryDescriptor_exact_highKernel : ∃ d freeChunks,
    getMemoryDescriptorIn (Vector.replicate maxChunks ⟨7, 7⟩) highKernel.memmap =
      .ok (d, freeChunks) ∧ d.length = 0x7fd9f000 ∧
    getMemoryDescriptorIn freeChunks highKernel.memmap = .ok (d, freeChunks) := by
  have hw : WellSorted highKernel.memmap := .of_ends (by decide) (by decide)
  obtain ⟨d, freeChunks, he, _, _, _, _, _, _, hl, _, htwice⟩ :=
    getMemoryDescriptor_exact (Vector.replicate maxChunks ⟨7, 7⟩) hw (by decide)
  exact ⟨d, freeChunks, he, hl, htwice⟩

end AdaOS
