import Mathlib.Data.BitVec
import Mathlib.Logic.Function.Basic
import Mathlib.Tactic.Common

namespace ByteMem
set_option autoImplicit true

abbrev Mem := Nat → BitVec 8

variable {m m' : Mem}

/-- The little-endian number in `n` bytes at `a`. -/
def load (m : Mem) : Nat → Nat → Nat
  | _, 0 => 0
  | a, n + 1 => (m a).toNat + 256 * load m (a + 1) n

def store (m : Mem) : Nat → Nat → Nat → Mem
  | _, 0, _ => m
  | a, n + 1, x => store (Function.update m a (BitVec.ofNat 8 x)) (a + 1) n (x / 256)

theorem load_shift (h : ∀ i < n, m' (b + i) = m (a + i)) : load m' b n = load m a n := by
  induction n generalizing a b with
  | zero => rfl
  | succ n ih =>
    have h₀ : m' b = m a := h 0 (Nat.succ_pos n)
    rw [load, load, h₀]
    congr 2
    apply ih
    intro i hi
    have hs := h (i + 1) (Nat.succ_lt_succ hi)
    rwa [Nat.add_comm i 1, ← Nat.add_assoc, ← Nat.add_assoc] at hs

theorem load_congr (h : ∀ i < n, m' (a + i) = m (a + i)) : load m' a n = load m a n :=
  load_shift h

theorem store_of_outside (h : c < a ∨ a + n ≤ c) : store m a n x c = m c := by
  induction n generalizing m a x with
  | zero => rfl
  | succ n ih =>
    rw [store, ih (by omega), Function.update_of_ne (by omega)]

theorem load_store (m : Mem) (a n x : Nat) : load (store m a n x) a n = x % 256 ^ n := by
  induction n generalizing m a x with
  | zero => simp [load, Nat.mod_one]
  | succ n ih =>
    have hhead : store (Function.update m a (BitVec.ofNat 8 x)) (a + 1) n (x / 256) a =
        BitVec.ofNat 8 x := by
      rw [store_of_outside (.inl (Nat.lt_succ_self a)), Function.update_self]
    rw [load, store, ih, hhead, BitVec.toNat_ofNat]
    change x % 256 + 256 * (x / 256 % 256 ^ n) = x % 256 ^ (n + 1)
    rw [Nat.pow_succ, Nat.mul_comm (256 ^ n) 256, Nat.mod_mul]

theorem load_store_of_apart (h : a + n ≤ c ∨ c + k ≤ a) :
    load (store m a n x) c k = load m c k := by
  apply load_congr
  intro i hi
  exact store_of_outside (by omega)

/-- The 64-bit word at `a`. -/
def word (m : Mem) (a : Nat) : Nat := load m a 8

def setWord (m : Mem) (a x : Nat) : Mem := store m a 8 x

theorem setWord_of_outside (h : c < a ∨ a + 8 ≤ c) : setWord m a x c = m c := store_of_outside h

theorem word_congr (h : ∀ i < 8, m' (a + i) = m (a + i)) : word m' a = word m a := load_congr h

theorem load_lt (m : Mem) (a n : Nat) : load m a n < 256 ^ n := by
  induction n generalizing a with
  | zero => exact Nat.one_pos
  | succ n ih =>
    have hhead := (m a).isLt
    have hrest := ih (a + 1)
    rw [load, Nat.pow_succ]
    omega

theorem word_lt (m : Mem) (a : Nat) : word m a < 2 ^ 64 := load_lt m a 8

theorem word_setWord (hx : x < 2 ^ 64) : word (setWord m a x) a = x :=
  (load_store m a 8 x).trans (Nat.mod_eq_of_lt hx)

theorem word_setWord_of_apart (h : a + 8 ≤ c ∨ c + 8 ≤ a) :
    word (setWord m a x) c = word m c := load_store_of_apart h

/-- `memset(a, 0, n)`. -/
def fill (m : Mem) (a n : Nat) : Mem := fun c => if a ≤ c ∧ c < a + n then 0 else m c

/-- `memcpy(dst, src, n)`. -/
def copy (m : Mem) (dst src n : Nat) : Mem :=
  fun c => if dst ≤ c ∧ c < dst + n then m (src + (c - dst)) else m c

theorem fill_of_outside (h : c < a ∨ a + n ≤ c) : fill m a n c = m c := if_neg (by omega)

theorem copy_of_outside (h : c < dst ∨ dst + n ≤ c) : copy m dst src n c = m c :=
  if_neg (by omega)

theorem fill_of_inside (hlo : a ≤ c) (hhi : c < a + n) : fill m a n c = 0 := if_pos ⟨hlo, hhi⟩

theorem copy_at (hi : i < n) : copy m dst src n (dst + i) = m (src + i) := by
  rw [copy, if_pos ⟨Nat.le_add_right .., Nat.add_lt_add_left hi _⟩, Nat.add_sub_cancel_left]

end ByteMem
