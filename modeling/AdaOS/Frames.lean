import Mathlib.Data.Finset.Card
import Mathlib.Data.Finset.Dedup
import AdaOS.Pmm
import AdaOS.Pte

namespace AdaOS
set_option autoImplicit true

/-- What a successful `pp_alloc` returns: a page-aligned physical address other than `NULL`. -/
structure Frame where
  addr : BitVec 64
  nonzero : addr ≠ 0
  aligned : pteGetAddr addr = addr

/-- The physical allocator as its callers see it. A frame given out is not in use, and no more
frames are in use than the bitmap has bits. -/
structure FrameAllocator (σ : Type) where
  alloc : σ → Except Fault (Option Frame × σ)
  free : σ → BitVec 64 → σ
  held : σ → Finset (BitVec 64)
  held_le : ∀ s, (held s).card ≤ maxPages
  alloc_some : ∀ s f s', alloc s = .ok (some f, s') →
    f.addr ∉ held s ∧ held s' = insert f.addr (held s)
  alloc_none : ∀ s s', alloc s = .ok (none, s') → held s' = held s
  free_held : ∀ s a, a ∈ held s → held (free s a) = (held s).erase a

/-- The allocator still has `n` frames to give. -/
def FrameAllocator.Lasts (A : FrameAllocator σ) : Nat → σ → Prop
  | 0, _ => True
  | n + 1, s => ∃ f s', A.alloc s = .ok (some f, s') ∧ A.Lasts n s'

theorem FrameAllocator.Lasts.mono {A : FrameAllocator σ} {s : σ} (h : A.Lasts n s)
    (hm : m ≤ n) : A.Lasts m s := by
  induction m generalizing n s with
  | zero => trivial
  | succ m ih =>
    obtain ⟨n, rfl⟩ : ∃ k, n = k + 1 := ⟨n - 1, by omega⟩
    obtain ⟨f, s', ha, hl⟩ := h
    exact ⟨f, s', ha, ih hl (Nat.le_of_succ_le_succ hm)⟩

/-- No call of the allocator goes on for ever. -/
def FrameAllocator.Ends (A : FrameAllocator σ) : Prop := ∀ s, AdaOS.Ends (A.alloc s)

/-- The frames of a pool that are in use. -/
abbrev PoolState (pool : List Frame) : Type :=
  { s : Finset (BitVec 64) // s ⊆ (pool.map Frame.addr).toFinset }

/-- The allocator that gives the first free frame of a fixed pool. -/
def framePool (pool : List Frame) (hpool : pool.length ≤ maxPages) :
    FrameAllocator (PoolState pool) where
  alloc s :=
    match h : pool.find? fun f => f.addr ∉ s.1 with
    | some f => .ok (some f, ⟨insert f.addr s.1, Finset.insert_subset
        (List.mem_toFinset.2 (List.mem_map_of_mem (List.mem_of_find?_eq_some h))) s.2⟩)
    | none => .ok (none, s)
  free s a := ⟨s.1.erase a, (Finset.erase_subset ..).trans s.2⟩
  held s := s.1
  held_le s := by
    have hle := (Finset.card_le_card s.2).trans (List.toFinset_card_le _)
    rw [List.length_map] at hle
    exact hle.trans hpool
  alloc_some s f s' h := by
    split at h
    · next g hg =>
      cases h
      have hfree := List.find?_some hg
      exact ⟨of_decide_eq_true hfree, rfl⟩
    · cases h
  alloc_none s s' h := by
    split at h
    · cases h
    · cases h
      rfl
  free_held _ _ _ := rfl

end AdaOS
