import Mathlib.Data.List.Sort
import Mathlib.Data.Set.Basic
import Mathlib.Tactic.Common

namespace Blocks
set_option autoImplicit true

/-- The addresses from `addr` on, `size` of them. -/
structure Block where
  addr : Nat
  size : Nat
  deriving DecidableEq, Repr

def Block.stop (b : Block) : Nat := b.addr + b.size

def Block.Has (b : Block) (a : Nat) : Prop := b.addr ≤ a ∧ a < b.stop

def Block.Apart (b c : Block) : Prop := b.stop ≤ c.addr ∨ c.stop ≤ b.addr

def Covers (l : List Block) (a : Nat) : Prop := ∃ b ∈ l, b.Has a

/-- Nonempty blocks in ascending order, none of them adjacent to the next. -/
structure Spaced (l : List Block) : Prop where
  pos : ∀ b ∈ l, 0 < b.size
  gaps : l.Pairwise fun b c => b.stop < c.addr

variable {b c d : Block} {l l' front back : List Block}

theorem Block.addr_le_stop (b : Block) : b.addr ≤ b.stop := Nat.le_add_right ..

theorem Block.has_addr (h : 0 < b.size) : b.Has b.addr :=
  ⟨Nat.le_refl _, Nat.lt_add_of_pos_right h⟩

theorem Block.Apart.symm (h : b.Apart c) : c.Apart b := Or.symm h

theorem Block.Apart.mono (h : b.Apart c) (hlo : b.addr ≤ d.addr) (hhi : d.stop ≤ b.stop) :
    d.Apart c := by
  rcases h with h | h
  · exact .inl (hhi.trans h)
  · exact .inr (h.trans hlo)

theorem Block.Apart.not_has (h : b.Apart c) (hb : b.Has a) : ¬c.Has a := by
  intro hc
  obtain ⟨hb₁, hb₂⟩ := hb
  obtain ⟨hc₁, hc₂⟩ := hc
  rcases h with h | h <;> omega

theorem Block.apart_of_not_has (hb : 0 < b.size) (hc : 0 < c.size)
    (h : ∀ a, b.Has a → ¬c.Has a) : b.Apart c := by
  by_contra hno
  rw [Block.Apart, not_or, Nat.not_le, Nat.not_le] at hno
  obtain ⟨h₁, h₂⟩ := hno
  simp only [Block.Has, Block.stop] at *
  rcases Nat.le_total b.addr c.addr with hle | hle
  · exact h c.addr ⟨hle, h₁⟩ ⟨Nat.le_refl _, by omega⟩
  · exact h b.addr ⟨Nat.le_refl _, by omega⟩ ⟨hle, h₂⟩

theorem covers_nil : ¬Covers [] a := fun ⟨_, hb, _⟩ => nomatch hb

theorem covers_cons : Covers (b :: l) a ↔ b.Has a ∨ Covers l a := by
  simp only [Covers, List.mem_cons, or_and_right, exists_or, exists_eq_left]

theorem covers_append : Covers (l ++ l') a ↔ Covers l a ∨ Covers l' a := by
  simp only [Covers, List.mem_append, or_and_right, exists_or]

theorem Covers.mono (h : Covers l a) (hs : l ⊆ l') : Covers l' a := by
  obtain ⟨b, hb, hba⟩ := h
  exact ⟨b, hs hb, hba⟩

theorem Block.not_covers (h : ∀ c ∈ l, b.Apart c) (hb : b.Has a) : ¬Covers l a := by
  intro hcov
  obtain ⟨c, hc, hca⟩ := hcov
  exact (h c hc).not_has hb hca

theorem Covers.not_covers (h : Covers l a) (hap : ∀ b ∈ l, ∀ c ∈ l', b.Apart c) :
    ¬Covers l' a := by
  obtain ⟨b, hb, hba⟩ := h
  exact Block.not_covers (hap b hb) hba

theorem spaced_nil : Spaced [] := ⟨fun _ hb => (nomatch hb), List.Pairwise.nil⟩

theorem spaced_cons : Spaced (b :: l) ↔ 0 < b.size ∧ Spaced l ∧ ∀ c ∈ l, b.stop < c.addr := by
  constructor
  · intro h
    obtain ⟨hb, hl⟩ := List.forall_mem_cons.1 h.pos
    obtain ⟨hgap, hgaps⟩ := List.pairwise_cons.1 h.gaps
    exact ⟨hb, ⟨hl, hgaps⟩, hgap⟩
  · rintro ⟨hb, hl, hgap⟩
    exact ⟨List.forall_mem_cons.2 ⟨hb, hl.pos⟩, List.pairwise_cons.2 ⟨hgap, hl.gaps⟩⟩

theorem spaced_append : Spaced (l ++ l') ↔
    Spaced l ∧ Spaced l' ∧ ∀ b ∈ l, ∀ c ∈ l', b.stop < c.addr := by
  constructor
  · intro h
    obtain ⟨hl, hl', hgap⟩ := List.pairwise_append.1 h.gaps
    exact ⟨⟨fun b hb => h.pos b (List.mem_append_left _ hb), hl⟩,
      ⟨fun b hb => h.pos b (List.mem_append_right _ hb), hl'⟩, hgap⟩
  · rintro ⟨hl, hl', hgap⟩
    refine ⟨fun b hb => ?_, List.pairwise_append.2 ⟨hl.gaps, hl'.gaps, hgap⟩⟩
    rcases List.mem_append.1 hb with hb | hb
    · exact hl.pos b hb
    · exact hl'.pos b hb

theorem Spaced.trichotomy (h : Spaced l) (hb : b ∈ l) (hc : c ∈ l) :
    b = c ∨ b.stop < c.addr ∨ c.stop < b.addr := by
  induction l with
  | nil => cases hb
  | cons d l ih =>
    obtain ⟨_, hl, hgap⟩ := spaced_cons.1 h
    rcases List.mem_cons.1 hb with rfl | hbl
    · rcases List.mem_cons.1 hc with rfl | hcl
      · exact .inl rfl
      · exact .inr (.inl (hgap c hcl))
    · rcases List.mem_cons.1 hc with rfl | hcl
      · exact .inr (.inr (hgap b hbl))
      · exact ih hl hbl hcl

/-- A longest nonempty stretch of addresses with property `P`. -/
structure Maximal (P : Nat → Prop) (b : Block) : Prop where
  pos : 0 < b.size
  inside : ∀ a, b.Has a → P a
  right : ¬P b.stop
  left : ∀ a, a + 1 = b.addr → ¬P a

theorem Spaced.maximal (h : Spaced l) (hb : b ∈ l) : Maximal (Covers l) b := by
  refine ⟨h.pos b hb, fun a ha => ⟨b, hb, ha⟩, ?_, ?_⟩
  · rintro ⟨c, hc, hle, hlt⟩
    have hbs := b.addr_le_stop
    rcases h.trichotomy hb hc with rfl | hgap | hgap
    · exact Nat.lt_irrefl _ hlt
    · omega
    · omega
  · rintro a ha ⟨c, hc, hle, hlt⟩
    have hbs := b.addr_le_stop
    rcases h.trichotomy hb hc with rfl | hgap | hgap
    · omega
    · omega
    · omega

/-- The blocks of a spaced list are the longest stretches it covers. -/
theorem Spaced.mem_iff (h : Spaced l) : b ∈ l ↔ Maximal (Covers l) b := by
  refine ⟨h.maximal, fun hmax => ?_⟩
  obtain ⟨c, hc, hle, hlt⟩ := hmax.inside b.addr (Block.has_addr hmax.pos)
  have hc' := h.maximal hc
  have hpos := hmax.pos
  have haddr : c.addr = b.addr := by
    by_contra hne
    exact hmax.left (b.addr - 1) (by omega) ⟨c, hc, by omega, by omega⟩
  have hstop : c.stop = b.stop := by
    rcases Nat.lt_trichotomy c.stop b.stop with hs | hs | hs
    · exact (hc'.right (hmax.inside c.stop ⟨by omega, hs⟩)).elim
    · exact hs
    · refine (hmax.right ⟨c, hc, ?_, hs⟩).elim
      have hbs := b.addr_le_stop
      omega
  have hsize : c.size = b.size := by
    simp only [Block.stop] at hstop
    omega
  have hcb : c = b := by
    cases c
    cases b
    simp only [Block.mk.injEq]
    exact ⟨haddr, hsize⟩
  exact hcb ▸ hc

theorem Spaced.ext (h : Spaced l) (h' : Spaced l') (hc : ∀ a, Covers l a ↔ Covers l' a) :
    l = l' := by
  have hirrefl : Std.Irrefl fun b c : Block => b.stop < c.addr :=
    ⟨fun b hlt => Nat.not_lt_of_le b.addr_le_stop hlt⟩
  have hanti : Std.Antisymm fun b c : Block => b.stop < c.addr := by
    constructor
    intro b c h₁ h₂
    have hbs := b.addr_le_stop
    have hcs := c.addr_le_stop
    omega
  apply h.gaps.eq_of_mem_iff h'.gaps
  intro b
  have hfun : Covers l = Covers l' := funext fun a => propext (hc a)
  rw [h.mem_iff, h'.mem_iff, hfun]

theorem Spaced.pairwise_apart (h : Spaced l) : l.Pairwise Block.Apart :=
  h.gaps.imp fun hlt => .inl (Nat.le_of_lt hlt)

/-- Puts a block in front of the ones after it, and makes one block of adjacent ones. -/
def join (b : Block) : List Block → List Block
  | [] => [b]
  | c :: l => if b.stop = c.addr then ⟨b.addr, b.size + c.size⟩ :: l else b :: c :: l

/-- Puts a block in its place by address, and makes one block of adjacent ones. -/
def place (b : Block) : List Block → List Block
  | [] => [b]
  | c :: l =>
    if c.addr < b.addr then
      if c.stop = b.addr then join ⟨c.addr, c.size + b.size⟩ l else c :: place b l
    else join b (c :: l)

theorem join_eq (b : Block) (l : List Block) : ∃ c l', join b l = c :: l' ∧ c.addr = b.addr := by
  cases l with
  | nil => exact ⟨b, [], rfl, rfl⟩
  | cons d l =>
    rw [join]
    split
    · exact ⟨⟨b.addr, b.size + d.size⟩, l, rfl, rfl⟩
    · exact ⟨b, d :: l, rfl, rfl⟩

theorem join_spec (hb : 0 < b.size) (hl : Spaced l) (hle : ∀ c ∈ l, b.stop ≤ c.addr) :
    Spaced (join b l) ∧ (∀ a, Covers (join b l) a ↔ b.Has a ∨ Covers l a) ∧
      ∀ c ∈ join b l, b.addr ≤ c.addr := by
  have hbs := b.addr_le_stop
  cases l with
  | nil =>
    refine ⟨spaced_cons.2 ⟨hb, spaced_nil, (fun _ hc => nomatch hc)⟩, fun a => covers_cons, ?_⟩
    intro c hc
    rw [List.mem_singleton.1 hc]
  | cons d l =>
    obtain ⟨hd, hl', hgap⟩ := spaced_cons.1 hl
    obtain ⟨hbd, hbl⟩ := List.forall_mem_cons.1 hle
    have hds := d.addr_le_stop
    rw [join]
    by_cases he : b.stop = d.addr
    · have hstop : (⟨b.addr, b.size + d.size⟩ : Block).stop = d.stop := by
        simp only [Block.stop] at *
        omega
      rw [if_pos he]
      refine ⟨spaced_cons.2 ⟨Nat.add_pos_left hb _, hl', fun c hc => hstop ▸ hgap c hc⟩,
        fun a => ?_, List.forall_mem_cons.2 ⟨Nat.le_refl _, fun c hc => ?_⟩⟩
      · rw [covers_cons, covers_cons, ← or_assoc]
        apply or_congr_left
        simp only [Block.Has, hstop]
        omega
      · have hc' := hbl c hc
        omega
    · rw [if_neg he]
      refine ⟨spaced_cons.2 ⟨hb, hl, List.forall_mem_cons.2 ⟨by omega, fun c hc => ?_⟩⟩,
        fun a => covers_cons, List.forall_mem_cons.2 ⟨Nat.le_refl _, fun c hc => ?_⟩⟩
      · have hc' := hgap c hc
        omega
      · have hc' := hle c hc
        omega

theorem place_spec (hb : 0 < b.size) (hl : Spaced l) (hapart : ∀ c ∈ l, b.Apart c) :
    Spaced (place b l) ∧ (∀ a, Covers (place b l) a ↔ b.Has a ∨ Covers l a) ∧
      ∀ c ∈ place b l, b.addr ≤ c.addr ∨ ∃ d ∈ l, d.addr ≤ c.addr := by
  have hbs := b.addr_le_stop
  induction l with
  | nil =>
    refine ⟨spaced_cons.2 ⟨hb, spaced_nil, (fun _ hc => nomatch hc)⟩, fun a => covers_cons, ?_⟩
    intro c hc
    exact .inl (List.mem_singleton.1 hc ▸ Nat.le_refl _)
  | cons d l ih =>
    obtain ⟨hd, hl', hgap⟩ := spaced_cons.1 hl
    obtain ⟨hbd, hbl⟩ := List.forall_mem_cons.1 hapart
    have hds := d.addr_le_stop
    rw [place]
    by_cases hlt : d.addr < b.addr
    · have hdb : d.stop ≤ b.addr := by
        rcases hbd with h | h
        · omega
        · exact h
      have hafter : ∀ c ∈ l, d.addr < c.addr := fun c hc => by
        have hc' := hgap c hc
        omega
      rw [if_pos hlt]
      by_cases he : d.stop = b.addr
      · have hstop : (⟨d.addr, d.size + b.size⟩ : Block).stop = b.stop := by
          simp only [Block.stop] at *
          omega
        have hle : ∀ c ∈ l, (⟨d.addr, d.size + b.size⟩ : Block).stop ≤ c.addr := by
          intro c hc
          have hc' := hgap c hc
          rw [hstop]
          rcases hbl c hc with h | h
          · exact h
          · have hcs := c.addr_le_stop
            omega
        obtain ⟨hs, hcov, hlow⟩ := join_spec (Nat.add_pos_left hd _) hl' hle
        rw [if_pos he]
        refine ⟨hs, fun a => ?_, fun c hc => .inr ⟨d, List.mem_cons_self .., hlow c hc⟩⟩
        rw [hcov, covers_cons, ← or_assoc]
        apply or_congr_left
        simp only [Block.Has, hstop]
        omega
      · obtain ⟨hs, hcov, hlow⟩ := ih hl' hbl
        rw [if_neg he]
        refine ⟨spaced_cons.2 ⟨hd, hs, fun c hc => ?_⟩, fun a => ?_,
          List.forall_mem_cons.2 ⟨.inr ⟨d, List.mem_cons_self .., Nat.le_refl _⟩, fun c hc => ?_⟩⟩
        · rcases hlow c hc with h | ⟨x, hx, h⟩
          · omega
          · have hx' := hgap x hx
            omega
        · rw [covers_cons, covers_cons, hcov]
          exact or_left_comm
        · rcases hlow c hc with h | ⟨x, hx, h⟩
          · exact .inl h
          · exact .inr ⟨x, List.mem_cons_of_mem _ hx, h⟩
    · have hle : ∀ c ∈ d :: l, b.stop ≤ c.addr := by
        have hbd' : b.stop ≤ d.addr := by
          rcases hbd with h | h
          · exact h
          · simp only [Block.stop] at *
            omega
        refine List.forall_mem_cons.2 ⟨hbd', fun c hc => ?_⟩
        have hc' := hgap c hc
        omega
      obtain ⟨hs, hcov, hlow⟩ := join_spec hb hl hle
      rw [if_neg hlt]
      exact ⟨hs, hcov, fun c hc => .inl (hlow c hc)⟩

theorem place_append (hf : ∀ c ∈ front, c.stop < b.addr) (hb : ∀ c ∈ back, b.addr ≤ c.addr) :
    place b (front ++ back) = front ++ join b back := by
  induction front with
  | nil =>
    cases back with
    | nil => rfl
    | cons c back =>
      have hc := hb c (List.mem_cons_self ..)
      rw [List.nil_append, List.nil_append, place, if_neg (by omega)]
  | cons d front ih =>
    obtain ⟨hd, hf⟩ := List.forall_mem_cons.1 hf
    have hds := d.addr_le_stop
    rw [List.cons_append, List.cons_append, place, if_pos (by omega), if_neg (by omega), ih hf]

theorem place_touching (hf : ∀ d ∈ front, d.stop < c.addr) (hc : c.addr < b.addr)
    (he : c.stop = b.addr) : place b (front ++ c :: l) =
      front ++ join ⟨c.addr, c.size + b.size⟩ l := by
  induction front with
  | nil => rw [List.nil_append, List.nil_append, place, if_pos hc, if_pos he]
  | cons d front ih =>
    obtain ⟨hd, hf⟩ := List.forall_mem_cons.1 hf
    have hds := d.addr_le_stop
    rw [List.cons_append, List.cons_append, place, if_pos (by omega), if_neg (by omega), ih hf]

/-- A block joins the ones after it, and the block before it then joins the result. -/
theorem place_after (hf : ∀ c ∈ front, c.stop < d.addr) (hd : d.addr < b.addr)
    (hds : d.stop ≤ b.addr) (hb : ∀ c ∈ back, b.addr ≤ c.addr) :
    place b (front ++ d :: back) = front ++ join d (join b back) := by
  have hdb : d.stop = d.addr + d.size := rfl
  by_cases he : d.stop = b.addr
  · rw [place_touching hf hd he]
    cases back with
    | nil => rw [join, join, join, if_pos he]
    | cons c back =>
      have hstop : (⟨d.addr, d.size + b.size⟩ : Block).stop = b.stop := by
        simp only [Block.stop] at *
        omega
      rw [join, join, hstop]
      split
      · rw [join, if_pos he, Nat.add_assoc]
      · rw [join, if_pos he]
  · have hlast : ∀ c ∈ front ++ [d], c.stop < b.addr := by
      intro c hc
      rcases List.mem_append.1 hc with hc | hc
      · have hcd := hf c hc
        omega
      · rw [List.mem_singleton.1 hc]
        omega
    have hplace := place_append hlast hb
    rw [List.append_assoc, List.singleton_append] at hplace
    rw [hplace, List.append_assoc, List.singleton_append]
    congr 1
    cases back with
    | nil => rw [join, join, if_neg he]
    | cons c back =>
      rw [join]
      split
      · rw [join, if_neg he]
      · rw [join, if_neg he]

/-- The size of the block that ends at `hi`, 0 when there is none. -/
def endSize (hi : Nat) : List Block → Nat
  | [] => 0
  | b :: l => if b.stop = hi then b.size else endSize hi l

theorem endSize_concat (hf : ∀ d ∈ front, d.stop ≠ hi) (c : Block) :
    endSize hi (front ++ [c]) = if c.stop = hi then c.size else 0 := by
  induction front with
  | nil => rfl
  | cons d front ih =>
    obtain ⟨hd, hf⟩ := List.forall_mem_cons.1 hf
    rw [List.cons_append, endSize, if_neg hd, ih hf]

/-- A block that is put behind all others makes the last of them larger, or is the last. -/
theorem Spaced.place_end (h : Spaced l) (hle : ∀ c ∈ l, c.stop ≤ hi) (hn : 0 < n) :
    endSize (hi + n) (place ⟨hi, n⟩ l) = endSize hi l + n ∧
      ∀ m, (∃ b ∈ place ⟨hi, n⟩ l, m ≤ b.size) ↔
        (∃ b ∈ l, m ≤ b.size) ∨ m ≤ endSize hi l + n := by
  have hstop : (⟨hi, n⟩ : Block).stop = hi + n := rfl
  rcases List.eq_nil_or_concat l with rfl | ⟨front, c, rfl⟩
  · refine ⟨?_, fun m => ?_⟩
    · rw [place, endSize, endSize, if_pos hstop, Nat.zero_add]
    · rw [place, endSize, Nat.zero_add]
      simp
  rw [List.concat_eq_append] at h hle ⊢
  obtain ⟨_, hc, hgap⟩ := spaced_append.1 h
  have hpos := hc.pos c (List.mem_singleton_self c)
  have hcs : c.stop = c.addr + c.size := rfl
  have hfront : ∀ d ∈ front, d.stop < c.addr := fun d hd => hgap d hd c (List.mem_singleton_self c)
  have hchi := hle c (List.mem_append_right _ (List.mem_singleton_self c))
  have hold : endSize hi (front ++ [c]) = if c.stop = hi then c.size else 0 := by
    apply endSize_concat
    intro d hd
    have hdc := hfront d hd
    omega
  have hnew : ∀ d ∈ front, d.stop ≠ hi + n := by
    intro d hd
    have hdc := hfront d hd
    omega
  by_cases he : c.stop = hi
  · rw [if_pos he] at hold
    have hplace := place_touching (b := ⟨hi, n⟩) (l := []) hfront
      (show c.addr < hi by omega) he
    rw [hplace, join, hold, endSize_concat hnew]
    refine ⟨if_pos (show c.addr + (c.size + n) = hi + n by omega), fun m => ?_⟩
    simp only [List.mem_append, List.mem_singleton, or_and_right, exists_or, exists_eq_left]
    rw [or_assoc]
    exact or_congr_right ⟨fun hm => .inr hm, fun hm => hm.elim (fun hc => by omega) fun hm => hm⟩
  · rw [if_neg he] at hold
    have hall : ∀ d ∈ front ++ [c], d.stop < hi := by
      intro d hd
      rcases List.mem_append.1 hd with hd | hd
      · have hdc := hfront d hd
        omega
      · rw [List.mem_singleton.1 hd]
        omega
    have hnone : ∀ d ∈ ([] : List Block), hi ≤ d.addr := fun _ hd => nomatch hd
    have hplace := place_append (b := ⟨hi, n⟩) hall hnone
    rw [List.append_nil, join] at hplace
    rw [hplace, hold, endSize_concat, if_pos hstop, Nat.zero_add]
    · refine ⟨rfl, fun m => ?_⟩
      simp only [List.mem_append, List.mem_singleton, or_and_right, exists_or, exists_eq_left]
    · intro d hd
      have hdc := hall d hd
      omega

theorem Spaced.split (h : Spaced l) (x : Nat) : ∃ front back, l = front ++ back ∧
    (∀ c ∈ front, c.addr < x) ∧ ∀ c ∈ back, x ≤ c.addr := by
  induction l with
  | nil => exact ⟨[], [], rfl, (fun _ hc => nomatch hc), (fun _ hc => nomatch hc)⟩
  | cons b l ih =>
    obtain ⟨_, hl, hgap⟩ := spaced_cons.1 h
    by_cases hlt : b.addr < x
    · obtain ⟨front, back, rfl, hf, hb⟩ := ih hl
      exact ⟨b :: front, back, rfl, List.forall_mem_cons.2 ⟨hlt, hf⟩, hb⟩
    · refine ⟨[], b :: l, rfl, (fun _ hc => nomatch hc), List.forall_mem_cons.2 ⟨by omega, ?_⟩⟩
      intro c hc
      have hbc := hgap c hc
      have hbs := b.addr_le_stop
      omega

/-- The start of a block is taken out of a spaced list. -/
theorem Spaced.carve (h : Spaced (front ++ c :: back)) (hn : 0 < n) (hlt : n < c.size) :
    Spaced (front ++ ⟨c.addr + n, c.size - n⟩ :: back) ∧
      ∀ a, Covers (front ++ ⟨c.addr + n, c.size - n⟩ :: back) a ↔
        Covers (front ++ c :: back) a ∧ ¬(⟨c.addr, n⟩ : Block).Has a := by
  have hcm : c ∈ front ++ c :: back := List.mem_append_right _ (List.mem_cons_self ..)
  obtain ⟨hf, hcb, hfc⟩ := spaced_append.1 h
  obtain ⟨hc, hb, hgap⟩ := spaced_cons.1 hcb
  have hstop : (⟨c.addr + n, c.size - n⟩ : Block).stop = c.stop := by
    simp only [Block.stop]
    omega
  constructor
  · refine spaced_append.2 ⟨hf, spaced_cons.2 ⟨Nat.sub_pos_of_lt hlt, hb, fun d hd =>
      hstop ▸ hgap d hd⟩, fun d hd => List.forall_mem_cons.2 ⟨?_, fun x hx => ?_⟩⟩
    · have hdc := hfc d hd c (List.mem_cons_self ..)
      exact Nat.lt_add_right n hdc
    · exact hfc d hd x (List.mem_cons_of_mem _ hx)
  · intro a
    rw [covers_append, covers_append, covers_cons, covers_cons]
    simp only [Block.Has, hstop]
    have hfront : Covers front a → a < c.addr := by
      rintro ⟨d, hd, _, hlt⟩
      have hdc := hfc d hd c (List.mem_cons_self ..)
      omega
    have hback : Covers back a → c.stop < a := by
      rintro ⟨d, hd, hle, _⟩
      have hcd := hgap d hd
      omega
    have hn' : (⟨c.addr, n⟩ : Block).stop = c.addr + n := rfl
    have hcs : c.stop = c.addr + c.size := rfl
    constructor
    · rintro (hf | ⟨h₁, h₂⟩ | hb)
      · have hlt := hfront hf
        exact ⟨.inl hf, by omega⟩
      · exact ⟨.inr (.inl ⟨by omega, h₂⟩), by omega⟩
      · have hlt := hback hb
        exact ⟨.inr (.inr hb), by omega⟩
    · rintro ⟨hf | ⟨h₁, h₂⟩ | hb, hno⟩
      · exact .inl hf
      · exact .inr (.inl ⟨by omega, h₂⟩)
      · exact .inr (.inr hb)

/-- A whole block is taken out of a spaced list. -/
theorem Spaced.remove (h : Spaced (front ++ c :: back)) :
    Spaced (front ++ back) ∧ ∀ a, Covers (front ++ back) a ↔
      Covers (front ++ c :: back) a ∧ ¬c.Has a := by
  obtain ⟨hf, hcb, hfc⟩ := spaced_append.1 h
  obtain ⟨hc, hb, hgap⟩ := spaced_cons.1 hcb
  refine ⟨spaced_append.2 ⟨hf, hb, fun d hd x hx => hfc d hd x (List.mem_cons_of_mem _ hx)⟩, ?_⟩
  intro a
  rw [covers_append, covers_append, covers_cons]
  have hfront : Covers front a → ¬c.Has a := by
    rintro ⟨d, hd, _, hlt⟩ ⟨hle, _⟩
    have hdc := hfc d hd c (List.mem_cons_self ..)
    omega
  have hback : Covers back a → ¬c.Has a := by
    rintro ⟨d, hd, hle, _⟩ ⟨_, hlt⟩
    have hcd := hgap d hd
    omega
  constructor
  · rintro (hf | hb)
    · exact ⟨.inl hf, hfront hf⟩
    · exact ⟨.inr (.inr hb), hback hb⟩
  · rintro ⟨hf | hc | hb, hno⟩
    · exact .inl hf
    · exact (hno hc).elim
    · exact .inr hb

theorem Spaced.length_le (h : Spaced l) (hlo : ∀ b ∈ l, lo ≤ b.addr) (hhi : ∀ b ∈ l, b.stop ≤ hi)
    (hk : ∀ b ∈ l, k ≤ b.size) : l.length * k ≤ hi - lo := by
  induction l generalizing lo with
  | nil => simp
  | cons b l ih =>
    obtain ⟨_, hl, hgap⟩ := spaced_cons.1 h
    obtain ⟨hlob, _⟩ := List.forall_mem_cons.1 hlo
    obtain ⟨hhib, hhil⟩ := List.forall_mem_cons.1 hhi
    obtain ⟨hkb, hkl⟩ := List.forall_mem_cons.1 hk
    have hrest := ih hl (fun c hc => Nat.le_of_lt (hgap c hc)) hhil hkl
    have hstop : b.stop = b.addr + b.size := rfl
    rw [List.length_cons, Nat.succ_mul]
    omega

end Blocks
