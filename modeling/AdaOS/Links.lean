import AdaOS.ByteMem
import AdaOS.Blocks

namespace Blocks
set_option autoImplicit true
open ByteMem

/-- From `p` on, the links in memory lead through these blocks to `q`. A block starts with its
size and the address of the next one. -/
def Links (m : Mem) : Nat → List Block → Nat → Prop
  | p, [], q => p = q
  | p, b :: l, q => p = b.addr ∧ word m b.addr = b.size ∧ Links m (word m (b.addr + 8)) l q

/-- Blocks in ascending order, each with room for the two words. -/
structure Roomy (l : List Block) : Prop where
  room : ∀ b ∈ l, 16 ≤ b.size
  order : l.Pairwise fun b c => b.stop ≤ c.addr

/-- The block a walk from `p` has come by last. -/
def lastAddr (p : Nat) : List Block → Nat
  | [] => p
  | b :: l => lastAddr b.addr l

variable {m m' : Mem} {b c d : Block} {l l' front back : List Block}

theorem lastAddr_snoc : lastAddr p (l ++ [d]) = d.addr := by
  induction l generalizing p with
  | nil => rfl
  | cons b l ih => exact ih

theorem roomy_append : Roomy (l ++ l') ↔
    Roomy l ∧ Roomy l' ∧ ∀ b ∈ l, ∀ c ∈ l', b.stop ≤ c.addr := by
  constructor
  · intro h
    obtain ⟨hroom, hroom'⟩ := List.forall_mem_append.1 h.room
    obtain ⟨hl, hl', hcross⟩ := List.pairwise_append.1 h.order
    exact ⟨⟨hroom, hl⟩, ⟨hroom', hl'⟩, hcross⟩
  · rintro ⟨hl, hl', hcross⟩
    exact ⟨List.forall_mem_append.2 ⟨hl.room, hl'.room⟩,
      List.pairwise_append.2 ⟨hl.order, hl'.order, hcross⟩⟩

theorem roomy_cons : Roomy (b :: l) ↔ 16 ≤ b.size ∧ Roomy l ∧ ∀ c ∈ l, b.stop ≤ c.addr := by
  constructor
  · intro h
    obtain ⟨hb, hroom⟩ := List.forall_mem_cons.1 h.room
    obtain ⟨hcross, hl⟩ := List.pairwise_cons.1 h.order
    exact ⟨hb, ⟨hroom, hl⟩, hcross⟩
  · rintro ⟨hb, hl, hcross⟩
    exact ⟨List.forall_mem_cons.2 ⟨hb, hl.room⟩, List.pairwise_cons.2 ⟨hcross, hl.order⟩⟩

theorem Roomy.split (h : Roomy (front ++ c :: back)) (hn : 16 ≤ n) (hle : n + 16 ≤ c.size) :
    Roomy (front ++ ⟨c.addr, n⟩ :: ⟨c.addr + n, c.size - n⟩ :: back) := by
  obtain ⟨hf, hb, hcross⟩ := roomy_append.1 h
  obtain ⟨_, hb, hgap⟩ := roomy_cons.1 hb
  have hstop : c.stop = c.addr + c.size := rfl
  have hcut : (⟨c.addr + n, c.size - n⟩ : Block).stop = c.stop := by
    change c.addr + n + (c.size - n) = c.stop
    omega
  have hend : Roomy (⟨c.addr + n, c.size - n⟩ :: back) := by
    refine roomy_cons.2 ⟨Nat.le_sub_of_add_le' hle, hb, fun d hd => ?_⟩
    rw [hcut]
    exact hgap d hd
  have hfirst : ∀ d ∈ (⟨c.addr + n, c.size - n⟩ : Block) :: back, c.addr + n ≤ d.addr := by
    refine List.forall_mem_cons.2 ⟨Nat.le_refl _, fun d hd => ?_⟩
    have hcd := hgap d hd
    omega
  refine roomy_append.2 ⟨hf, roomy_cons.2 ⟨hn, hend, hfirst⟩, fun d hd => ?_⟩
  have hdc := hcross d hd c (List.mem_cons_self ..)
  refine List.forall_mem_cons.2 ⟨hdc, fun e he => ?_⟩
  exact Nat.le_trans hdc ((Nat.le_add_right ..).trans (hfirst e he))

theorem Roomy.join (h : Roomy (front ++ b :: back)) : Roomy (front ++ Blocks.join b back) := by
  obtain ⟨hf, hbl, hcross⟩ := roomy_append.1 h
  cases back with
  | nil => exact h
  | cons c back =>
    rw [Blocks.join]
    split
    · next he =>
      obtain ⟨hb, hcl, _⟩ := roomy_cons.1 hbl
      obtain ⟨hc, hl, hgap⟩ := roomy_cons.1 hcl
      have hstop : (⟨b.addr, b.size + c.size⟩ : Block).stop = c.stop := by
        simp only [Block.stop] at *
        omega
      refine roomy_append.2 ⟨hf, roomy_cons.2 ⟨Nat.le_add_right_of_le hb, hl, ?_⟩, ?_⟩
      · intro d hd
        rw [hstop]
        exact hgap d hd
      · intro d hd x hx
        rcases List.mem_cons.1 hx with rfl | hx
        · exact hcross d hd b (List.mem_cons_self ..)
        · exact hcross d hd x (List.mem_cons_of_mem _ (List.mem_cons_of_mem _ hx))
    · exact h

theorem links_append : Links m p (l ++ l') q ↔ ∃ r, Links m p l r ∧ Links m r l' q := by
  induction l generalizing p with
  | nil =>
    constructor
    · intro h
      exact ⟨p, rfl, h⟩
    · rintro ⟨r, rfl, h⟩
      exact h
  | cons b l ih =>
    rw [List.cons_append, Links, ih]
    constructor
    · rintro ⟨hp, hs, r, hl, hl'⟩
      exact ⟨r, ⟨hp, hs, hl⟩, hl'⟩
    · rintro ⟨r, ⟨hp, hs, hl⟩, hl'⟩
      exact ⟨hp, hs, r, hl, hl'⟩

theorem links_snoc : Links m p (l ++ [d]) q ↔
    Links m p l d.addr ∧ word m d.addr = d.size ∧ word m (d.addr + 8) = q := by
  rw [links_append]
  constructor
  · rintro ⟨r, hl, rfl, hs, hq⟩
    exact ⟨hl, hs, hq⟩
  · rintro ⟨hl, hs, hq⟩
    exact ⟨d.addr, hl, rfl, hs, hq⟩

theorem Links.start_lt (h : Links m p l 0) (hl : ∀ b ∈ l, b.stop < 2 ^ 64) : p < 2 ^ 64 := by
  cases l with
  | nil =>
    rw [h]
    decide
  | cons b l =>
    rw [h.1]
    exact Nat.lt_of_le_of_lt b.addr_le_stop (hl b (List.mem_cons_self ..))

theorem Links.unique (h : Links m p l 0) (h' : Links m p l' 0) (hz : ∀ b ∈ l, b.addr ≠ 0)
    (hz' : ∀ b ∈ l', b.addr ≠ 0) : l = l' := by
  induction l generalizing p l' with
  | nil =>
    cases l' with
    | nil => rfl
    | cons c l' => exact (hz' c (List.mem_cons_self ..) (h'.1.symm.trans h)).elim
  | cons b l ih =>
    cases l' with
    | nil => exact (hz b (List.mem_cons_self ..) (h.1.symm.trans h')).elim
    | cons c l' =>
      obtain ⟨hb, hs, hl⟩ := h
      obtain ⟨hc, hs', hl'⟩ := h'
      have haddr : b.addr = c.addr := hb.symm.trans hc
      rw [← haddr] at hs' hl'
      have hbc : b = c := by
        cases b
        cases c
        exact congr (congrArg Block.mk haddr) (hs.symm.trans hs')
      rw [hbc, ih hl hl' (fun d hd => hz d (List.mem_cons_of_mem _ hd))
        fun d hd => hz' d (List.mem_cons_of_mem _ hd)]

theorem words_congr (hr : 16 ≤ b.size) (hm : ∀ a, b.Has a → m' a = m a) :
    word m' b.addr = word m b.addr ∧ word m' (b.addr + 8) = word m (b.addr + 8) := by
  have hstop : b.stop = b.addr + b.size := rfl
  constructor
  · apply word_congr
    intro i hi
    exact hm _ ⟨by omega, by omega⟩
  · apply word_congr
    intro i hi
    exact hm _ ⟨by omega, by omega⟩

theorem Links.congr (h : Links m p l q) (hr : ∀ b ∈ l, 16 ≤ b.size)
    (hm : ∀ a, Covers l a → m' a = m a) : Links m' p l q := by
  induction l generalizing p with
  | nil => exact h
  | cons b l ih =>
    obtain ⟨hp, hs, hl⟩ := h
    obtain ⟨hrb, hrl⟩ := List.forall_mem_cons.1 hr
    obtain ⟨hsize, hnext⟩ := words_congr hrb fun a ha => hm a (covers_cons.2 (.inl ha))
    refine ⟨hp, hsize.trans hs, ?_⟩
    rw [hnext]
    exact ih hl hrl fun a ha => hm a (covers_cons.2 (.inr ha))

theorem setWord_of_not_has (ha : d.addr ≤ a) (hs : a + 8 ≤ d.stop) (h : ¬d.Has e) :
    setWord m a x e = m e := by
  apply setWord_of_outside
  by_contra hno
  exact h ⟨by omega, by omega⟩

theorem Links.keep (h : Links m p l q) (hr : ∀ b ∈ l, 16 ≤ b.size)
    (hd : ∀ b ∈ l, d.Apart b) (hm : ∀ a, ¬d.Has a → m' a = m a) : Links m' p l q := by
  apply h.congr hr
  intro a hcov
  exact hm a fun hda => Block.not_covers hd hda hcov

theorem Links.retarget (h : Links m p (l ++ [d]) q) (hr : Roomy (l ++ [d])) (hn : n < 2 ^ 64) :
    Links (setWord m (d.addr + 8) n) p (l ++ [d]) n := by
  obtain ⟨hl, hs, _⟩ := links_snoc.1 h
  obtain ⟨hfront, hlast, hcross⟩ := roomy_append.1 hr
  have hd := List.mem_singleton_self d
  have hroom := hlast.room d hd
  have hstop : d.stop = d.addr + d.size := rfl
  refine links_snoc.2 ⟨?_, ?_, word_setWord hn⟩
  · apply hl.keep hfront.room fun b hb => .inr (hcross b hb d hd)
    intro a ha
    exact setWord_of_not_has (by omega) (by omega) ha
  · rw [word_setWord_of_apart (by omega), hs]

theorem Links.absorb (h : Links m p (l ++ b :: c :: l') q) (hr : Roomy (l ++ b :: c :: l'))
    (hs : b.size + c.size < 2 ^ 64) (hn : word m (c.addr + 8) < 2 ^ 64) :
    Links (setWord (setWord m b.addr (b.size + c.size)) (b.addr + 8) (word m (c.addr + 8)))
      p (l ++ ⟨b.addr, b.size + c.size⟩ :: l') q := by
  obtain ⟨r, hl, rfl, _, _, _, hl'⟩ := links_append.1 h
  obtain ⟨hfront, hback, hcross⟩ := roomy_append.1 hr
  obtain ⟨hroom, hrest, hgap⟩ := roomy_cons.1 hback
  have hstop : b.stop = b.addr + b.size := rfl
  have hout : ∀ a, ¬b.Has a → setWord (setWord m b.addr (b.size + c.size)) (b.addr + 8)
      (word m (c.addr + 8)) a = m a := by
    intro a ha
    rw [setWord_of_not_has (by omega) (by omega) ha, setWord_of_not_has (by omega) (by omega) ha]
  refine links_append.2 ⟨b.addr, ?_, rfl, ?_, ?_⟩
  · exact hl.keep hfront.room (fun d hd => .inr (hcross d hd b (List.mem_cons_self ..))) hout
  · change word _ b.addr = b.size + c.size
    rw [word_setWord_of_apart (by omega), word_setWord hs]
  · change Links _ (word _ (b.addr + 8)) l' q
    rw [word_setWord hn]
    apply hl'.keep (roomy_cons.1 hrest).2.1.room _ hout
    intro d hd
    exact .inl (hgap d (List.mem_cons_of_mem _ hd))

end Blocks
