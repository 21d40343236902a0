import Mathlib.Data.Nat.Count
import Mathlib.Logic.Function.Basic

namespace BitCount
set_option autoImplicit true

/-- The set bits of a bitmap among the first `n`. -/
def bits (p : Nat → Bool) (n : Nat) : Nat := Nat.count (fun i => p i = true) n

variable {p q : Nat → Bool}

theorem bits_zero (p : Nat → Bool) : bits p 0 = 0 := Nat.count_zero _

theorem bits_succ (p : Nat → Bool) (n : Nat) : bits p (n + 1) = bits p n + (p n).toNat := by
  rw [bits, Nat.count_succ]
  cases p n <;> rfl

theorem bits_le (p : Nat → Bool) (n : Nat) : bits p n ≤ n := Nat.count_le _

theorem bits_congr (h : ∀ i < n, p i = q i) : bits p n = bits q n := by
  induction n with
  | zero => rw [bits_zero, bits_zero]
  | succ n ih =>
    rw [bits_succ, bits_succ, h n (Nat.lt_succ_self n)]
    rw [ih fun i hi => h i (Nat.lt_succ_of_lt hi)]

theorem bits_eq_zero : bits p n = 0 ↔ ∀ i < n, p i = false := by
  rw [bits, Nat.count_iff_forall_not]
  exact forall₂_congr fun i _ => Bool.not_eq_true _ ▸ Iff.rfl

theorem bits_set (hi : i < n) (hclear : p i = false) :
    bits (Function.update p i true) n = bits p n + 1 := by
  induction n with
  | zero => exact absurd hi (Nat.not_lt_zero i)
  | succ n ih =>
    rw [bits_succ, bits_succ]
    rcases Nat.eq_or_lt_of_le (Nat.le_of_lt_succ hi) with rfl | hlt
    · have hbelow : bits (Function.update p i true) i = bits p i :=
        bits_congr fun j hj => Function.update_of_ne (Nat.ne_of_lt hj) _ _
      rw [hbelow, Function.update_self, hclear]
      rfl
    · rw [ih hlt, Function.update_of_ne (Nat.ne_of_gt hlt)]
      exact Nat.add_right_comm _ _ _

theorem bits_clear (hi : i < n) (hset : p i = true) :
    bits (Function.update p i false) n + 1 = bits p n := by
  have hback := bits_set hi (Function.update_self i false p)
  rw [Function.update_idem, ← hset, Function.update_eq_self] at hback
  exact hback.symm

theorem bits_or_add_and (p q : Nat → Bool) (n : Nat) :
    bits (fun i => p i || q i) n + bits (fun i => p i && q i) n = bits p n + bits q n := by
  induction n with
  | zero => simp only [bits_zero]
  | succ n ih =>
    have hbit : (p n || q n).toNat + (p n && q n).toNat = (p n).toNat + (q n).toNat := by
      cases p n <;> cases q n <;> rfl
    simp only [bits_succ]
    omega

def range (i n : Nat) (k : Nat) : Bool := decide (i ≤ k ∧ k < i + n)

theorem range_zero (i : Nat) : range i 0 = fun _ => false := by
  funext k
  exact decide_eq_false fun h => Nat.not_lt_of_le h.1 h.2

theorem range_succ (i n : Nat) : range i (n + 1) = Function.update (range (i + 1) n) i true := by
  funext k
  by_cases hk : k = i
  · rw [hk, Function.update_self]
    exact decide_eq_true ⟨Nat.le_refl i, by omega⟩
  · rw [Function.update_of_ne hk]
    exact decide_eq_decide.2 (by omega)

theorem range_below (h : k < i) : range i n k = false :=
  decide_eq_false fun hr => Nat.not_lt_of_le hr.1 h

theorem bits_range (h : i + n ≤ m) : bits (range i n) m = n := by
  induction n generalizing i with
  | zero => exact bits_eq_zero.2 fun k _ => by rw [range_zero]
  | succ n ih =>
    rw [range_succ, bits_set (by omega) (range_below (Nat.lt_succ_self i)), ih (by omega)]

/-- The first bit of a range is counted by itself. -/
theorem bits_range_succ (p : Nat → Bool) (hi : i < m) (n : Nat) :
    bits (fun k => range i (n + 1) k && p k) m =
      bits (fun k => range (i + 1) n k && p k) m + (p i).toNat := by
  cases hp : p i with
  | false =>
    apply bits_congr
    intro k _
    rw [range_succ, Function.update_apply]
    split
    · next hk => rw [hk, hp, Bool.and_false, Bool.and_false]
    · rfl
  | true =>
    have hboth : (fun k => range i (n + 1) k && p k) =
        Function.update (fun k => range (i + 1) n k && p k) i true := by
      funext k
      rw [range_succ, Function.update_apply, Function.update_apply]
      split
      · next hk => rw [hk, hp, Bool.and_true]
      · rfl
    have hclear : (range (i + 1) n i && p i) = false := by
      rw [range_below (Nat.lt_succ_self i), Bool.false_and]
    rw [hboth, bits_set hi hclear]
    rfl

theorem bits_range_beyond (p : Nat → Bool) (hi : m ≤ i) (n : Nat) :
    bits (fun k => range i n k && p k) m = 0 := by
  apply bits_eq_zero.2
  intro k hk
  rw [range_below (Nat.lt_of_lt_of_le hk hi), Bool.false_and]

theorem bits_add_rest (h : ∀ i < n, p i = true → q i = true) :
    bits p n + bits (fun i => !p i && q i) n = bits q n := by
  have hsum := bits_or_add_and p (fun i => !p i && q i) n
  have hnone : bits (fun i => p i && (!p i && q i)) n = 0 :=
    bits_eq_zero.2 fun i _ => by cases p i <;> rfl
  have hall : bits (fun i => p i || (!p i && q i)) n = bits q n := by
    refine bits_congr fun i hi => ?_
    cases hp : p i with
    | false => rfl
    | true => rw [h i hi hp, Bool.true_or]
  rw [hnone, hall, Nat.add_zero] at hsum
  exact hsum.symm

end BitCount
