import Mathlib.Data.List.Perm.Basic
import AdaOS.Blocks

namespace Blocks
set_option autoImplicit true

/-- The addresses from `lo` up to `hi` outside the blocks `used`. -/
def Gap (lo hi : Nat) (used : List Block) (a : Nat) : Prop := lo ≤ a ∧ a < hi ∧ ¬Covers used a

def Block.Grained (g : Nat) (b : Block) : Prop := g ∣ b.addr ∧ g ∣ b.size

/-- Blocks in use with everything between them in `free`, all in multiples of `g`. -/
structure Tiling (g lo hi : Nat) (used free : List Block) : Prop where
  spaced : Spaced free
  gaps : ∀ a, Covers free a ↔ Gap lo hi used a
  pos : ∀ b ∈ used, 0 < b.size
  apart : used.Pairwise Block.Apart
  within : ∀ b ∈ used, lo ≤ b.addr ∧ b.stop ≤ hi
  grain : ∀ b ∈ used ++ free, b.Grained g

variable {b c d : Block} {used used' free free' front back : List Block}

theorem place_all {P : Block → Prop} (hP : ∀ b c, P b → P c → P ⟨b.addr, b.size + c.size⟩)
    (hb : P b) (hl : ∀ c ∈ l, P c) : ∀ c ∈ place b l, P c := by
  have hjoin : ∀ x y, P x → (∀ c ∈ y, P c) → ∀ c ∈ join x y, P c := by
    intro x y hx hy
    cases y with
    | nil => exact List.forall_mem_cons.2 ⟨hx, hy⟩
    | cons d y =>
      obtain ⟨hd, hy'⟩ := List.forall_mem_cons.1 hy
      rw [join]
      split
      · exact List.forall_mem_cons.2 ⟨hP x d hx hd, hy'⟩
      · exact List.forall_mem_cons.2 ⟨hx, hy⟩
  induction l with
  | nil => exact List.forall_mem_cons.2 ⟨hb, hl⟩
  | cons d l ih =>
    obtain ⟨hd, hl'⟩ := List.forall_mem_cons.1 hl
    rw [place]
    split
    · split
      · exact hjoin _ _ (hP d b hd hb) hl'
      · exact List.forall_mem_cons.2 ⟨hd, ih hl'⟩
    · exact hjoin _ _ hb hl

theorem Block.Grained.merge (hb : b.Grained g) (hc : c.Grained g) :
    Block.Grained g ⟨b.addr, b.size + c.size⟩ := ⟨hb.1, Nat.dvd_add hb.2 hc.2⟩

section Tiling
variable (h : Tiling g lo hi used free)
include h

theorem Tiling.room (hb : b ∈ used ++ free) : g ≤ b.size := by
  apply Nat.le_of_dvd _ (h.grain b hb).2
  rcases List.mem_append.1 hb with hb | hb
  · exact h.pos b hb
  · exact h.spaced.pos b hb

theorem Tiling.free_within (hb : b ∈ free) : lo ≤ b.addr ∧ b.stop ≤ hi := by
  have hpos := h.spaced.pos b hb
  have hstop : b.stop = b.addr + b.size := rfl
  obtain ⟨hlo, _, _⟩ := (h.gaps b.addr).1 ⟨b, hb, Block.has_addr hpos⟩
  obtain ⟨_, hhi, _⟩ := (h.gaps (b.stop - 1)).1 ⟨b, hb, by omega, by omega⟩
  omega

theorem Tiling.apart_free (hb : b ∈ used) (hc : c ∈ free) : b.Apart c := by
  apply Block.apart_of_not_has (h.pos b hb) (h.spaced.pos c hc)
  intro a hba hca
  exact ((h.gaps a).1 ⟨c, hc, hca⟩).2.2 ⟨b, hb, hba⟩

theorem Tiling.perm (hp : used.Perm used') : Tiling g lo hi used' free := by
  have hcov : ∀ a, Covers used' a ↔ Covers used a := fun a =>
    exists_congr fun b => and_congr_left fun _ => hp.symm.mem_iff
  refine ⟨h.spaced, fun a => ?_, fun b hb => h.pos b (hp.mem_iff.2 hb),
    hp.pairwise h.apart fun hbc => hbc.symm, fun b hb => h.within b (hp.mem_iff.2 hb), ?_⟩
  · rw [h.gaps, Gap, Gap, hcov]
  · intro b hb
    exact h.grain b ((hp.append_right free).mem_iff.2 hb)

theorem Tiling.mem_iff : b ∈ free ↔ Maximal (Gap lo hi used) b := by
  have hfun : Covers free = Gap lo hi used := funext fun a => propext (h.gaps a)
  rw [h.spaced.mem_iff, hfun]

theorem Tiling.unique (h' : Tiling g lo hi used' free') (hu : ∀ b, b ∈ used ↔ b ∈ used') :
    free = free' := by
  apply h.spaced.ext h'.spaced
  intro a
  have hcov : Covers used a ↔ Covers used' a :=
    exists_congr fun b => and_congr_left fun _ => hu b
  rw [h.gaps, h'.gaps, Gap, Gap, hcov]

theorem Tiling.cover : (used ++ free).Pairwise Block.Apart ∧
    ∀ a, Covers (used ++ free) a ↔ lo ≤ a ∧ a < hi := by
  constructor
  · exact List.pairwise_append.2 ⟨h.apart, h.spaced.pairwise_apart,
      fun b hb c hc => h.apart_free hb hc⟩
  · intro a
    rw [covers_append, h.gaps]
    constructor
    · rintro (⟨b, hb, hle, hlt⟩ | ⟨hlo, hhi, _⟩)
      · have hbin := h.within b hb
        omega
      · exact ⟨hlo, hhi⟩
    · rintro ⟨hlo, hhi⟩
      by_cases hua : Covers used a
      · exact .inl hua
      · exact .inr ⟨hlo, hhi, hua⟩

theorem Tiling.length_le : free.length * g ≤ hi - lo := by
  apply h.spaced.length_le
  · exact fun b hb => (h.free_within hb).1
  · exact fun b hb => (h.free_within hb).2
  · exact fun b hb => h.room (List.mem_append_right _ hb)

end Tiling

theorem Tiling.eq_whole (h : Tiling g lo hi [] free) (hlt : lo < hi) :
    free = [⟨lo, hi - lo⟩] := by
  apply h.spaced.ext (spaced_cons.2 ⟨Nat.sub_pos_of_lt hlt, spaced_nil, fun _ hc => nomatch hc⟩)
  intro a
  have hstop : (⟨lo, hi - lo⟩ : Block).stop = hi := Nat.add_sub_of_le (Nat.le_of_lt hlt)
  rw [h.gaps, covers_cons, Gap, Block.Has, hstop]
  constructor
  · rintro ⟨hlo, hhi, _⟩
    exact .inl ⟨hlo, hhi⟩
  · rintro (⟨hlo, hhi⟩ | hno)
    · exact ⟨hlo, hhi, covers_nil⟩
    · exact (covers_nil hno).elim

theorem Tiling.empty (g lo : Nat) : Tiling g lo lo [] [] := by
  refine ⟨spaced_nil, fun a => ?_, fun _ hb => (nomatch hb), .nil, fun _ hb => (nomatch hb),
    fun _ hb => (nomatch hb)⟩
  constructor
  · intro hc
    exact (covers_nil hc).elim
  · rintro ⟨hlo, hhi, _⟩
    omega

theorem Tiling.use (h : Tiling g lo hi used free) (hc : c ∈ free) (hd : d.Grained g)
    (hpos : 0 < d.size) (hlo : c.addr ≤ d.addr) (hhi : d.stop ≤ c.stop) (hs : Spaced free')
    (hcov : ∀ a, Covers free' a ↔ Covers free a ∧ ¬d.Has a) (hg : ∀ b ∈ free', b.Grained g) :
    Tiling g lo hi (d :: used) free' := by
  obtain ⟨hclo, hchi⟩ := h.free_within hc
  refine ⟨hs, fun a => ?_, List.forall_mem_cons.2 ⟨hpos, h.pos⟩,
    List.pairwise_cons.2 ⟨fun b hb => ?_, h.apart⟩,
    List.forall_mem_cons.2 ⟨by omega, h.within⟩, ?_⟩
  · rw [hcov, h.gaps, Gap, Gap, covers_cons, not_or, and_assoc, and_assoc]
    exact and_congr_right fun _ => and_congr_right fun _ => and_comm
  · apply Block.apart_of_not_has hpos (h.pos b hb)
    rintro a ⟨hda, hda'⟩ hba
    exact ((h.apart_free hb hc).not_has hba) ⟨by omega, by omega⟩
  · obtain ⟨hgu, _⟩ := List.forall_mem_append.1 h.grain
    exact List.forall_mem_append.2 ⟨List.forall_mem_cons.2 ⟨hd, hgu⟩, hg⟩

theorem Tiling.take (h : Tiling g lo hi used (front ++ c :: back)) :
    Tiling g lo hi (c :: used) (front ++ back) := by
  obtain ⟨hs, hcov⟩ := h.spaced.remove
  have hc : c ∈ front ++ c :: back := by simp
  obtain ⟨_, hgf⟩ := List.forall_mem_append.1 h.grain
  apply h.use hc (hgf c hc) (h.spaced.pos c hc) (Nat.le_refl _) (Nat.le_refl _) hs hcov
  intro b hb
  apply hgf b
  rcases List.mem_append.1 hb with hb | hb
  · exact List.mem_append_left _ hb
  · exact List.mem_append_right _ (List.mem_cons_of_mem _ hb)

theorem Tiling.split (h : Tiling g lo hi used (front ++ c :: back)) (hn : 0 < n)
    (hlt : n < c.size) (hg : g ∣ n) :
    Tiling g lo hi (⟨c.addr, n⟩ :: used) (front ++ ⟨c.addr + n, c.size - n⟩ :: back) := by
  obtain ⟨hs, hcov⟩ := h.spaced.carve hn hlt
  have hc : c ∈ front ++ c :: back := by simp
  obtain ⟨_, hgf⟩ := List.forall_mem_append.1 h.grain
  obtain ⟨hga, hgs⟩ := hgf c hc
  have hcs : c.stop = c.addr + c.size := rfl
  have hns : (⟨c.addr, n⟩ : Block).stop = c.addr + n := rfl
  apply h.use (d := ⟨c.addr, n⟩) hc ⟨hga, hg⟩ hn (Nat.le_refl _) (by omega) hs hcov
  intro b hb
  rcases List.mem_append.1 hb with hb | hb
  · exact hgf b (List.mem_append_left _ hb)
  · rcases List.mem_cons.1 hb with rfl | hb
    · exact ⟨Nat.dvd_add hga hg, Nat.dvd_sub hgs hg⟩
    · exact hgf b (List.mem_append_right _ (List.mem_cons_of_mem _ hb))

theorem Tiling.release (h : Tiling g lo hi (b :: used) free) :
    Tiling g lo hi used (place b free) := by
  obtain ⟨hpos, hposu⟩ := List.forall_mem_cons.1 h.pos
  obtain ⟨hap, hapu⟩ := List.pairwise_cons.1 h.apart
  obtain ⟨hin, hinu⟩ := List.forall_mem_cons.1 h.within
  obtain ⟨hgu, hgf⟩ := List.forall_mem_append.1 h.grain
  obtain ⟨hgb, hgu⟩ := List.forall_mem_cons.1 hgu
  obtain ⟨hs, hcov, _⟩ := place_spec hpos h.spaced
    fun c hc => h.apart_free (List.mem_cons_self ..) hc
  refine ⟨hs, fun a => ?_, hposu, hapu, hinu,
    List.forall_mem_append.2 ⟨hgu, place_all (fun _ _ hx hy => hx.merge hy) hgb hgf⟩⟩
  rw [hcov, h.gaps, Gap, Gap, covers_cons, not_or]
  constructor
  · rintro (⟨hle, hlt⟩ | ⟨hlo, hhi, _, hno⟩)
    · refine ⟨by omega, by omega, ?_⟩
      rintro ⟨c, hc, hca⟩
      exact (hap c hc).not_has ⟨hle, hlt⟩ hca
    · exact ⟨hlo, hhi, hno⟩
  · rintro ⟨hlo, hhi, hno⟩
    by_cases hb : b.Has a
    · exact .inl hb
    · exact .inr ⟨hlo, hhi, hb, hno⟩

theorem Tiling.grow (h : Tiling g lo hi used free) (hle : lo ≤ hi) (hn : 0 < n) (hg : g ∣ hi)
    (hgn : g ∣ n) : Tiling g lo (hi + n) used (place ⟨hi, n⟩ free) := by
  obtain ⟨hgu, hgf⟩ := List.forall_mem_append.1 h.grain
  obtain ⟨hs, hcov, _⟩ := place_spec (b := ⟨hi, n⟩) hn h.spaced
    fun c hc => .inr (h.free_within hc).2
  refine ⟨hs, fun a => ?_, h.pos, h.apart, fun b hb => ?_,
    List.forall_mem_append.2 ⟨hgu, place_all (fun _ _ hx hy => hx.merge hy) ⟨hg, hgn⟩ hgf⟩⟩
  · have hstop : (⟨hi, n⟩ : Block).stop = hi + n := rfl
    simp only [hcov, h.gaps, Gap, Block.Has, hstop]
    constructor
    · rintro (⟨hge, hlt⟩ | ⟨hlo, hhi, hno⟩)
      · refine ⟨by omega, hlt, ?_⟩
        rintro ⟨b, hb, _, hba⟩
        have hin := h.within b hb
        omega
      · exact ⟨hlo, by omega, hno⟩
    · rintro ⟨hlo, hhi, hno⟩
      by_cases hlt : a < hi
      · exact .inr ⟨hlo, hlt, hno⟩
      · exact .inl ⟨Nat.le_of_not_lt hlt, hhi⟩
  · have hin := h.within b hb
    omega

end Blocks
