import AdaOS.Core
import AdaOS.HeapSizes

namespace AdaOS
set_option autoImplicit true
open ByteMem Blocks

/-- The payload of `p` is as large as it was and holds what it held. -/
structure SamePayload (h h' : Heap σ) (p : Nat) : Prop where
  size : payloadOf h'.bytes p = payloadOf h.bytes p
  bytes : ∀ a, (payloadOf h.bytes p).Has a → h'.bytes a = h.bytes a

/-- `krealloc` of the live pointer `p` to `n` bytes has returned `q`. When it fails `p` stays live.
Otherwise `q` is live with what `p` held, and the block of `p` is free unless it is that of `q`. -/
structure Reallocated (live : List (Nat × Nat)) (h h' : Heap σ) (p n q : Nat) : Prop where
  failed : q = 0 → HeapSafe h' live ∧ SamePayload h h' p
  served : q ≠ 0 → HeapSafe h' ((q, n) :: dropped p live) ∧ n ≤ (payloadOf h'.bytes q).size ∧
    ∀ i < min (payloadOf h.bytes p).size n, h'.bytes (q + i) = h.bytes (p + i)
  freed : q ≠ 0 → q ≠ p →
    ∃ l, h'.FreeList l ∧ ∀ a, (blockOf h.bytes p).Has a → Covers l a
  others : ∀ e ∈ live, e.1 ≠ p → SamePayload h h' e.1

variable {σ : Type} {A : FrameAllocator σ} {h h' g w : Heap σ} {live live' : List (Nat × Nat)}
  {l l' : List Block} {higherHalf : Nat} {e : Nat × Nat}

theorem copy_eq_memcpy (h : dest + n ≤ src ∨ src + n ≤ dest) :
    copy m dest src n = memcpy m dest src n := by
  funext c
  rw [memcpy, memcpyFrom_apart (by omega)]
  rfl

section HeapInv
variable (hi : HeapInv A h live l)
include hi

theorem HeapInv.blockOf_eq (hs : live' ⊆ live) (hk : Keeps (h.used live') h h') (he : e ∈ live') :
    blockOf h'.bytes e.1 = blockOf h.bytes e.1 := by
  have hroom : ∀ b ∈ h.used live', 16 ≤ b.size := by
    intro b hb
    exact hi.room (List.mem_append_left _ (List.map_subset _ hs hb))
  exact List.map_inj_left.1 (hk.used_eq hroom) e he

theorem HeapInv.samePayload (hs : live' ⊆ live) (hk : Keeps (h.used live') h h')
    (he : e ∈ live') : SamePayload h h' e.1 := by
  have hb := congrArg Block.size (hi.blockOf_eq hs hk he)
  refine ⟨congrArg (fun n => Block.mk e.1 (n - headerSize)) hb, ?_⟩
  intro a ha
  exact hk.bytes a ⟨_, List.mem_map_of_mem he, hi.payload_has (hs he) ha⟩

theorem HeapInv.freed (he : e ∈ live) (hi' : HeapInv A h' (dropped e.1 live) l')
    (hk : Keeps (h.used (dropped e.1 live)) h h') (ha : (blockOf h.bytes e.1).Has a) :
    Covers l' a := by
  obtain ⟨_, hlo, hhi, _⟩ := hi.block he
  have hin : h'.heapStart ≤ a ∧ a < h'.heapStart + h'.heapSize := by
    have hstart := hk.start
    have hsize := hk.size
    have hfirst := ha.1
    have hlast := ha.2
    omega
  rcases covers_append.1 ((hi'.tiling.cover.2 a).2 hin) with hused | hfree
  · obtain ⟨b, hb, hba⟩ := hused
    obtain ⟨e', he', rfl⟩ := List.mem_map.1 hb
    obtain ⟨hmem, hne⟩ := List.mem_filter.1 he'
    rw [hi.blockOf_eq dropped_subset hk he'] at hba
    have hap := hi.apart he hmem (of_decide_eq_true hne).symm
    exact (hap.not_has ha hba).elim
  · exact hfree

/-- The payload that `krealloc` copies has arrived when the old block is free. -/
theorem HeapInv.moved_bytes (he : e ∈ live) (hg : kmalloc A h size = .ok (p, g)) (hp : p ≠ 0)
    (hle : size ≤ 2 ^ 64 - 32) (hn : n ≤ size) (hpay : n ≤ (payloadOf h.bytes e.1).size)
    (hw : kfree { g with bytes := copy g.bytes p e.1 n } e.1 = .ok w) :
    (∀ i < n, w.bytes (p + i) = h.bytes (e.1 + i)) ∧ p ≠ e.1 ∧
      ∃ l', w.FreeList l' ∧ ∀ a, (blockOf h.bytes e.1).Has a → Covers l' a := by
  obtain ⟨⟨l', hic⟩, hkeep⟩ := hi.copied hg hp hle hn e.1
  have hold : e ∈ (p, size) :: live := List.mem_cons_of_mem _ he
  have hne : p ≠ e.1 := (List.pairwise_cons.1 hic.distinct).1 e he
  obtain ⟨w', hw', ⟨l'', hinv⟩, hkw⟩ := hic.of_kfree hold
  rw [hw] at hw'
  cases hw'
  refine ⟨?_, hne, l'', hinv.freeList, ?_⟩
  · intro i hlt
    have hnew : (p, size) ∈ dropped e.1 ((p, size) :: live) :=
      List.mem_filter.2 ⟨List.mem_cons_self .., decide_eq_true hne⟩
    obtain ⟨haddr, _, _, hend, _, _⟩ := hic.block (List.mem_cons_self ..)
    have hkept := hkw.bytes (p + i) ⟨_, List.mem_map_of_mem hnew, by dsimp only at *; omega,
      by dsimp only at *; omega⟩
    have hsrc : (payloadOf h.bytes e.1).Has (e.1 + i) :=
      ⟨Nat.le_add_right .., Nat.add_lt_add_left (Nat.lt_of_lt_of_le hlt hpay) _⟩
    have hgk := (hi.of_kmalloc_block hg hle hp).2
    calc w.bytes (p + i) = copy g.bytes p e.1 n (p + i) := hkept
      _ = g.bytes (e.1 + i) := copy_at hlt
      _ = h.bytes (e.1 + i) := hgk.bytes _ ⟨_, List.mem_map_of_mem he, hi.payload_has he hsrc⟩
  · intro a ha
    rw [← hi.blockOf_eq (List.Subset.refl _) hkeep he] at ha
    exact hic.freed hold hinv hkw ha

theorem HeapInv.copy_eq (he : e ∈ live) (hg : kmalloc A h size = .ok (p, g)) (hp : p ≠ 0)
    (hle : size ≤ 2 ^ 64 - 32) (hn : (blockOf h.bytes e.1).size - 16 ≤ size) :
    copy g.bytes p e.1 ((blockOf h.bytes e.1).size - 16) =
      memcpy g.bytes p e.1 ((blockOf h.bytes e.1).size - 16) := by
  obtain ⟨⟨l', hig⟩, hkeep⟩ := hi.of_kmalloc_block hg hle hp
  have hold : e ∈ (p, size) :: live := List.mem_cons_of_mem _ he
  have hnew : (p, size) ∈ (p, size) :: live := List.mem_cons_self ..
  have hne : e.1 ≠ p := ((List.pairwise_cons.1 hig.distinct).1 e he).symm
  obtain ⟨haddr, _⟩ := hig.block hold
  obtain ⟨haddr', _, _, hend, _⟩ := hig.block hnew
  have hap := hig.apart hold hnew hne
  have hsize := congrArg Block.size (hi.blockOf_eq (List.Subset.refl _) hkeep he)
  have hstop : (blockOf g.bytes e.1).stop =
    (blockOf g.bytes e.1).addr + (blockOf g.bytes e.1).size := rfl
  apply copy_eq_memcpy
  dsimp only at *
  rcases hap with hap | hap
  · right
    omega
  · left
    omega

theorem HeapInv.krealloc_memcpy (he : e ∈ live) (hs : size ≠ 0) (hle : size ≤ 2 ^ 64 - 32) :
    krealloc A h e.1 size =
      (if size ≤ (blockOf h.bytes e.1).size - 16 then .ok (e.1, h)
      else do
        let (p, g) ← kmalloc A h size
        if p = 0 then .ok (0, g)
        else
          let g ← kfree { g with
            bytes := memcpy g.bytes p e.1 ((blockOf h.bytes e.1).size - 16) } e.1
          .ok (p, g)) := by
  rw [hi.krealloc_eq he hs]
  split
  · rfl
  · next hbig =>
    apply bind_congr_ok
    rintro ⟨p, g⟩ hg
    dsimp only
    split
    · rfl
    · next hp => rw [hi.copy_eq he hg hp hle (Nat.le_of_lt (Nat.lt_of_not_le hbig))]

/-- Every outcome of `krealloc` of a live pointer to a size other than 0. -/
theorem HeapInv.reallocated (he : e ∈ live) (hs : size ≠ 0) (hle : size ≤ 2 ^ 64 - 32)
    (h₀ : krealloc A h e.1 size = .ok (p, h')) : Reallocated live h h' e.1 size p := by
  obtain ⟨⟨l', hinv⟩, hk⟩ := hi.of_krealloc he h₀ hs hle
  have hothers : ∀ e' ∈ live, e'.1 ≠ e.1 → SamePayload h h' e'.1 := by
    intro e' he' hne
    exact hi.samePayload dropped_subset hk (List.mem_filter.2 ⟨he', decide_eq_true hne⟩)
  have hpay : (payloadOf h.bytes e.1).size = (blockOf h.bytes e.1).size - 16 := rfl
  rw [hi.krealloc_eq he hs] at h₀
  split at h₀
  · next hfit =>
    cases h₀
    have hnull : e.1 ≠ 0 := hi.not_null he
    rw [if_neg hnull] at hinv
    refine ⟨fun hq => (hnull hq).elim, ?_, fun _ hq => (hq rfl).elim, hothers⟩
    intro _
    exact ⟨hinv.safe, hpay ▸ hfit, fun _ _ => rfl⟩
  · next hbig =>
    obtain ⟨⟨q, g⟩, hg, h₀⟩ := bind_ok h₀
    dsimp only at h₀
    split at h₀
    · next hq =>
      cases h₀
      rw [if_pos rfl] at hinv
      refine ⟨?_, fun hq => (hq rfl).elim, fun hq => (hq rfl).elim, hothers⟩
      intro _
      exact ⟨hinv.safe, hi.samePayload (List.Subset.refl _) (hi.of_kmalloc hg hle).2 he⟩
    · next hq =>
      obtain ⟨w, hw, h₀⟩ := bind_ok h₀
      cases h₀
      rw [if_neg hq] at hinv
      have hgrows : (blockOf h.bytes e.1).size - 16 ≤ size := Nat.le_of_lt (Nat.lt_of_not_le hbig)
      obtain ⟨hbytes, _, hfree⟩ := hi.moved_bytes he hg hq hle hgrows (Nat.le_of_eq hpay.symm) hw
      refine ⟨fun hp => (hq hp).elim, ?_, fun _ _ => hfree, hothers⟩
      intro _
      have hroom := (hinv.hasPayload (List.mem_cons_self ..)).room
      refine ⟨hinv.safe, hroom, ?_⟩
      intro i hlt
      exact hbytes i (Nat.lt_of_lt_of_le hlt (hpay ▸ Nat.min_le_left ..))

end HeapInv

/-- `krealloc` of a live pointer to a size other than 0 keeps its contents, whether it fails or
not, and leaves the other live blocks alone. It returns unless the layers below it do not. -/
theorem krealloc_preserves (hb : HhdmPlaced higherHalf) (hr : SizedRun A higherHalf h live)
    (he : (p, m) ∈ live) (hn : 1 ≤ n) (hle : n ≤ 2 ^ 64 - 32) :
    (∃ q h', krealloc A h p n = .ok (q, h') ∧ Reallocated live h h' p n q) ∨
      ∃ f, krealloc A h p n = .error f ∧ FromBelow A f := by
  obtain ⟨l, hi⟩ := hr.inv hb
  cases hk : krealloc A h p n with
  | error f => exact .inr ⟨f, rfl, hi.krealloc_error (.inr ⟨m, he⟩) hle hk⟩
  | ok r =>
    obtain ⟨q, h'⟩ := r
    exact .inl ⟨q, h', rfl, hi.reallocated he (Nat.ne_of_gt hn) hle hk⟩

/-- The block of 24 bytes moves behind its neighbour, which stays. -/
theorem krealloc_preserves_twoBlocks : ∃ (h h' : Heap (OwnedPmm oneChunk)) (p q r : Nat),
    SizedRun (pmmFrames oneChunk_sound) 0xffff800000000000 h [(q, 100), (p, 24)] ∧
    krealloc (pmmFrames oneChunk_sound) h p 200 = .ok (r, h') ∧ r ≠ 0 ∧
    Reallocated [(q, 100), (p, 24)] h h' p 200 r := by
  obtain ⟨h, p, q, c, hp, hq, hr, hi, hlarge⟩ := heapRun_twoBlocks
  have hlive : (p, 24) ∈ [(q, 100), (p, 24)] := .tail _ (.head _)
  have hroom : totalSize 200 = 224 := by decide
  obtain ⟨r, g, hk, hr0, _⟩ := hi.kmalloc_split (show 200 ≠ 0 by decide) (by decide) (by omega)
  obtain ⟨r', h', hcall, hr'⟩ : ∃ r' h',
      krealloc (pmmFrames oneChunk_sound) h p 200 = .ok (r', h') ∧ r' ≠ 0 := by
    rw [hi.krealloc_eq hlive (by decide)]
    split
    · exact ⟨p, h, rfl, hp⟩
    · next hbig =>
      obtain ⟨w, hw, _⟩ := hi.moved hlive hk hr0 (by decide)
        (Nat.le_of_lt (Nat.lt_of_not_le hbig))
      refine ⟨r, w, ?_, hr0⟩
      rw [hk, bind_of_ok rfl]
      dsimp only
      rw [if_neg hr0, hw]
      rfl
  obtain ⟨r'', h'', hok, hpreserved⟩ | ⟨f, herror, _⟩ :=
    krealloc_preserves hhdmPlaced_default hr.sized hlive (n := 200) (by decide) (by decide)
  · cases hok.symm.trans hcall
    exact ⟨h, h', p, q, r', hr.sized, hcall, hr', hpreserved⟩
  · cases herror.symm.trans hcall

end AdaOS
