import Mathlib.Logic.Function.Basic
import Mathlib.Tactic.Common

namespace Raster
set_option autoImplicit true

/-- The pixel at column `x` of row `y`, in rows of `pitch` pixels one after the other. -/
def index (pitch x y : Nat) : Nat := y * pitch + x

theorem index_lt (hx : x < pitch) (hy : y < height) : index pitch x y < height * pitch := by
  have hle : (y + 1) * pitch ≤ height * pitch := Nat.mul_le_mul_right _ hy
  rw [Nat.add_mul, Nat.one_mul] at hle
  rw [index]
  omega

theorem index_inj (hx : x < pitch) (hx' : x' < pitch) (h : index pitch x y = index pitch x' y') :
    x = x' ∧ y = y' := by
  have hpos : 0 < pitch := Nat.zero_lt_of_lt hx
  have hmod := congrArg (· % pitch) h
  have hdiv := congrArg (· / pitch) h
  simp only [index, Nat.mul_comm _ pitch, Nat.mul_add_mod, Nat.mod_eq_of_lt hx,
    Nat.mod_eq_of_lt hx'] at hmod
  simp only [index, Nat.mul_comm _ pitch, Nat.mul_add_div hpos, Nat.div_eq_of_lt hx,
    Nat.div_eq_of_lt hx', Nat.add_zero] at hdiv
  exact ⟨hmod, hdiv⟩

theorem index_add (pitch x y k : Nat) : index pitch x (y + k) = index pitch x y + k * pitch := by
  rw [index, index, Nat.add_mul]
  omega

theorem index_div (hx : x < pitch) (n y : Nat) :
    index pitch x y / (n * pitch) = y / n := by
  have hpos : 0 < pitch := Nat.zero_lt_of_lt hx
  rw [Nat.mul_comm n, ← Nat.div_div_eq_div_mul, index, Nat.mul_comm, Nat.mul_add_div hpos,
    Nat.div_eq_of_lt hx, Nat.add_zero]

theorem index_mod (hx : x < pitch) (hn : 0 < n) (y : Nat) :
    index pitch x y % (n * pitch) = index pitch x (y % n) := by
  have hlt : index pitch x (y % n) < n * pitch := index_lt hx (Nat.mod_lt y hn)
  have hsplit : index pitch x y = n * pitch * (y / n) + index pitch x (y % n) := by
    calc index pitch x y = (n * (y / n) + y % n) * pitch + x := by rw [Nat.div_add_mod, index]
      _ = n * pitch * (y / n) + index pitch x (y % n) := by
        rw [Nat.add_mul, Nat.add_assoc, Nat.mul_right_comm, index]
  rw [hsplit, Nat.mul_add_mod, Nat.mod_eq_of_lt hlt]

variable {α : Type} {m : Nat → α}

def copy (m : Nat → α) (dst src n : Nat) : Nat → α :=
  fun a => if dst ≤ a ∧ a < dst + n then m (src + (a - dst)) else m a

def fill (m : Nat → α) (v : α) (dst n : Nat) : Nat → α :=
  fun a => if dst ≤ a ∧ a < dst + n then v else m a

theorem copy_of_inside (h : dst ≤ a ∧ a < dst + n) : copy m dst src n a = m (src + (a - dst)) :=
  if_pos h

theorem copy_of_outside (h : ¬(dst ≤ a ∧ a < dst + n)) : copy m dst src n a = m a := if_neg h

theorem fill_of_inside (h : dst ≤ a ∧ a < dst + n) : fill m v dst n a = v := if_pos h

theorem fill_of_outside (h : ¬(dst ≤ a ∧ a < dst + n)) : fill m v dst n a = m a := if_neg h

/-- Draw each pixel of a list in turn. -/
def draw (m : Nat → α) (l : List (Nat × α)) : Nat → α :=
  l.foldl (fun m p => Function.update m p.1 p.2) m

@[simp] theorem draw_cons : draw m (p :: l) = draw (Function.update m p.1 p.2) l := rfl

theorem draw_of_not_mem (h : ∀ p ∈ l, p.1 ≠ a) : draw m l a = m a := by
  induction l generalizing m with
  | nil => rfl
  | cons p l ih =>
    rw [draw_cons, ih fun q hq => h q (.tail _ hq)]
    exact Function.update_of_ne (h p (.head _)).symm _ _

theorem draw_of_mem (hm : (a, v) ∈ l) (hv : ∀ p ∈ l, p.1 = a → p.2 = v) : draw m l a = v := by
  induction l generalizing m with
  | nil => cases hm
  | cons p l ih =>
    rw [draw_cons]
    have hv' : ∀ q ∈ l, q.1 = a → q.2 = v := fun q hq => hv q (.tail _ hq)
    by_cases hl : (a, v) ∈ l
    · exact ih hl hv'
    · cases hm with
      | tail _ hm => exact absurd hm hl
      | head =>
        by_cases hex : ∃ q ∈ l, q.1 = a
        · obtain ⟨q, hq, rfl⟩ := hex
          exact absurd (hv' q hq rfl ▸ hq) hl
        · rw [draw_of_not_mem fun q hq ha => hex ⟨q, hq, ha⟩]
          exact Function.update_self _ _ _

theorem mem_block_iff {a i block stride : Nat} (hb : block ≤ stride) :
    (i * stride ≤ a ∧ a < i * stride + block) ↔ a / stride = i ∧ a % stride < block := by
  have hd := Nat.div_add_mod' a stride
  constructor
  · rintro ⟨hle, hlt⟩
    have hpos : 0 < stride := by omega
    have hi : a / stride = i := by
      apply Nat.div_eq_of_lt_le hle
      rw [Nat.add_mul]
      omega
    rw [hi] at hd
    exact ⟨hi, by omega⟩
  · rintro ⟨rfl, hm⟩
    omega

/-- Copy the block at `(i + 1) * stride` to `i * stride`, then the next one down, `n` of them. -/
def shift (m : Nat → α) (stride block i : Nat) : Nat → Nat → α
  | 0 => m
  | n + 1 => shift (copy m (i * stride) ((i + 1) * stride) block) stride block (i + 1) n

theorem copy_block (hb : block ≤ stride) :
    copy m (i * stride) ((i + 1) * stride) block a =
      if a / stride = i ∧ a % stride < block then m (a + stride) else m a := by
  by_cases h : a / stride = i ∧ a % stride < block
  · have hi := (mem_block_iff hb).2 h
    have ha : (i + 1) * stride + (a - i * stride) = a + stride := by
      rw [Nat.add_mul]
      omega
    rw [if_pos h, copy_of_inside hi, ha]
  · rw [if_neg h, copy_of_outside fun hi => h ((mem_block_iff hb).1 hi)]

theorem shift_apply (hb : block ≤ stride) (m : Nat → α) (i n a : Nat) :
    shift m stride block i n a =
      if i ≤ a / stride ∧ a / stride < i + n ∧ a % stride < block then m (a + stride)
      else m a := by
  induction n generalizing m i with
  | zero =>
    rw [if_neg fun h => Nat.lt_irrefl _ (Nat.lt_of_le_of_lt h.1 h.2.1)]
    rfl
  | succ n ih =>
    rw [shift, ih, copy_block hb, copy_block hb]
    by_cases hm : a % stride < block
    · have hpos : 0 < stride := Nat.lt_of_le_of_lt (Nat.zero_le _) (Nat.lt_of_lt_of_le hm hb)
      have hnext : (a + stride) / stride = a / stride + 1 := Nat.add_div_right _ hpos
      simp only [hnext, hm, and_true]
      split_ifs <;> first | rfl | omega
    · simp only [hm, and_false, if_false]

end Raster
