import Mathlib.Data.Nat.Digits.Defs
import Mathlib.Tactic.Common

namespace Positional
set_option autoImplicit true

/-- The number that digits stand for, the most significant one first. -/
def value (b : Nat) (l : List Nat) : Nat := l.foldl (fun n x => b * n + x) 0

/-- The last `k` digits of a number, the first of them by division by a power of the base. -/
def places (b : Nat) : Nat → Nat → List Nat
  | _, 0 => []
  | n, k + 1 => n / b ^ k :: places b (n % b ^ k) k

/-- Digits that stand for a number, of which none but the single digit 0 begins with 0. -/
structure Canonical (b n : Nat) (l : List Nat) : Prop where
  lt_base : ∀ x ∈ l, x < b
  value_eq : value b l = n
  ne_nil : l ≠ []
  head_ne_zero : l.head? = some 0 → l = [0]

theorem value_eq_ofDigits (b : Nat) (l : List Nat) : value b l = Nat.ofDigits b l.reverse := by
  rw [value, ← List.foldr_reverse, Nat.ofDigits_eq_foldr]
  simp only [Nat.add_comm, Nat.cast_id]

theorem value_cons (b x : Nat) (l : List Nat) :
    value b (x :: l) = x * b ^ l.length + value b l := by
  rw [value_eq_ofDigits, value_eq_ofDigits, List.reverse_cons, Nat.ofDigits_append,
    Nat.ofDigits_singleton, List.length_reverse, Nat.add_comm, Nat.mul_comm]

theorem length_places (b n k : Nat) : (places b n k).length = k := by
  induction k generalizing n with
  | zero => rfl
  | succ k ih => rw [places, List.length_cons, ih]

theorem value_places (hn : n < b ^ k) : value b (places b n k) = n := by
  induction k generalizing n with
  | zero => exact (Nat.lt_one_iff.1 hn).symm
  | succ k ih =>
    have hpos : 0 < b ^ k := Nat.pos_of_ne_zero fun h => by
      rw [Nat.pow_succ, h, Nat.zero_mul] at hn
      exact Nat.not_lt_zero n hn
    rw [places, value_cons, length_places, ih (Nat.mod_lt n hpos), Nat.mul_comm]
    exact Nat.div_add_mod n (b ^ k)

theorem places_lt (hn : n < b ^ k) : ∀ x ∈ places b n k, x < b := by
  induction k generalizing n with
  | zero => exact List.forall_mem_nil _
  | succ k ih =>
    rw [Nat.pow_succ, Nat.mul_comm] at hn
    have hpos : 0 < b ^ k := Nat.pos_of_ne_zero fun h => by
      rw [h, Nat.mul_zero] at hn
      exact Nat.not_lt_zero n hn
    exact List.forall_mem_cons.2 ⟨(Nat.div_lt_iff_lt_mul hpos).2 hn, ih (Nat.mod_lt n hpos)⟩

theorem canonical_places (hlt : n < b ^ (k + 1)) (hle : k = 0 ∨ b ^ k ≤ n) :
    Canonical b n (places b n (k + 1)) := by
  refine ⟨places_lt hlt, value_places hlt, List.cons_ne_nil _ _, fun hzero => ?_⟩
  have hhead : n / b ^ k = 0 := Option.some.inj hzero
  obtain rfl | hle := hle
  · rw [places, hhead, places]
  · obtain hn | hbig := Nat.div_eq_zero_iff.1 hhead
    · rw [Nat.pow_succ, hn, Nat.zero_mul] at hlt
      exact absurd hlt (Nat.not_lt_zero n)
    · exact absurd hle (Nat.not_le.2 hbig)

theorem Canonical.eq_digits (hb : 1 < b) (h : Canonical b n l) :
    l = if n = 0 then [0] else (Nat.digits b n).reverse := by
  have hvalue := h.value_eq
  by_cases hzero : l.head? = some 0
  · obtain rfl := h.head_ne_zero hzero
    have hn : n = 0 := hvalue.symm
    rw [if_pos hn]
  · have hlast : ∀ hl : l.reverse ≠ [], l.reverse.getLast hl ≠ 0 := by
      intro hl hlast
      rw [List.getLast_reverse] at hlast
      rw [List.head?_eq_some_head (List.reverse_ne_nil_iff.1 hl), hlast] at hzero
      exact hzero rfl
    have hdigits := Nat.digits_ofDigits b hb l.reverse
      (fun x hx => h.lt_base x (List.mem_reverse.1 hx)) hlast
    rw [← value_eq_ofDigits, hvalue] at hdigits
    have hn : n ≠ 0 := by
      rintro rfl
      rw [Nat.digits_zero] at hdigits
      exact h.ne_nil (List.reverse_eq_nil_iff.1 hdigits.symm)
    rw [if_neg hn, hdigits, List.reverse_reverse]

theorem Canonical.unique (hb : 1 < b) (hl : Canonical b n l) (hm : Canonical b n m) : l = m := by
  rw [hl.eq_digits hb, hm.eq_digits hb]

end Positional
