import Mathlib.Data.BitVec
import Mathlib.Logic.Function.Basic
import Mathlib.Tactic.Common

namespace AdaOS
set_option autoImplicit true

/-- The loop of `memcmp`, `n` turns from index `i` on. -/
def memcmpFrom (s1 s2 : Nat → BitVec 8) (i : Nat) : Nat → Int
  | 0 => 0
  | n + 1 =>
    if s1 i ≠ s2 i then
      if s1 i < s2 i then -1 else 1
    else memcmpFrom s1 s2 (i + 1) n

def memcmp (s1 s2 : Nat → BitVec 8) (n : Nat) : Int := memcmpFrom s1 s2 0 n

theorem memcmpFrom_eq_zero (s1 s2 : Nat → BitVec 8) (i n : Nat) :
    memcmpFrom s1 s2 i n = 0 ↔ ∀ j, i ≤ j → j < i + n → s1 j = s2 j := by
  induction n generalizing i with
  | zero => exact ⟨fun _ j hi hj => absurd hj (Nat.not_lt.2 hi), fun _ => rfl⟩
  | succ n ih =>
    rw [memcmpFrom]
    by_cases h : s1 i = s2 i
    · rw [if_neg (not_not.2 h), ih (i + 1)]
      constructor
      · intro hr j hi hj
        rcases Nat.eq_or_lt_of_le hi with rfl | hlt
        · exact h
        · exact hr j hlt (by omega)
      · intro hr j hi hj
        exact hr j (Nat.le_of_succ_le hi) (by omega)
    · rw [if_pos h]
      constructor
      · intro hz
        split at hz <;> cases hz
      · intro hr
        exact absurd (hr i (Nat.le_refl i) (by omega)) h

theorem memcmp_eq_zero (s1 s2 : Nat → BitVec 8) (n : Nat) :
    memcmp s1 s2 n = 0 ↔ ∀ j < n, s1 j = s2 j := by
  rw [memcmp, memcmpFrom_eq_zero]
  constructor
  · intro h j hj
    exact h j (Nat.zero_le j) (by omega)
  · intro h j _ hj
    exact h j (by omega)

/-- The loop of `memcpy`, `n` turns from index `i` on. -/
def memcpyFrom (m : Nat → BitVec 8) (dest src i : Nat) : Nat → Nat → BitVec 8
  | 0 => m
  | n + 1 => memcpyFrom (Function.update m (dest + i) (m (src + i))) dest src (i + 1) n

def memcpy (m : Nat → BitVec 8) (dest src n : Nat) : Nat → BitVec 8 := memcpyFrom m dest src 0 n

theorem memcpyFrom_eq (h : dest ≤ src ∨ src + i + n ≤ dest + i) (c : Nat) :
    memcpyFrom m dest src i n c =
      if dest + i ≤ c ∧ c < dest + i + n then m (src + (c - dest)) else m c := by
  induction n generalizing m i with
  | zero => exact (if_neg (by omega)).symm
  | succ n ih =>
    rw [memcpyFrom, ih (by omega)]
    by_cases hc : c = dest + i
    · subst hc
      rw [if_neg (by omega), if_pos (by omega), Function.update_self, Nat.add_sub_cancel_left]
    · rw [Function.update_of_ne hc]
      by_cases hin : dest + (i + 1) ≤ c ∧ c < dest + (i + 1) + n
      · rw [if_pos hin, if_pos (by omega), Function.update_of_ne (by omega)]
      · rw [if_neg hin, if_neg (by omega)]

theorem memcpyFrom_apart (h : dest + i + n ≤ src + i ∨ src + i + n ≤ dest + i) (c : Nat) :
    memcpyFrom m dest src i n c =
      if dest + i ≤ c ∧ c < dest + i + n then m (src + (c - dest)) else m c :=
  memcpyFrom_eq (h.imp_left fun hle => by omega) c

/-- The second loop of `memmove`, from `i` down. -/
def memmoveDown (m : Nat → BitVec 8) (dest src : Nat) : Nat → Nat → BitVec 8
  | 0 => m
  | i + 1 => memmoveDown (Function.update m (dest + i) (m (src + i))) dest src i

/-- `memmove` between ranges that do not wrap around; it returns `dest`. Its first loop is that of
`memcpy`. -/
def memmove (m : Nat → BitVec 8) (dest src n : Nat) : Nat × (Nat → BitVec 8) :=
  if src > dest then (dest, memcpyFrom m dest src 0 n)
  else if src < dest then (dest, memmoveDown m dest src n)
  else (dest, m)

theorem memmoveDown_eq (h : src ≤ dest) (c : Nat) :
    memmoveDown m dest src n c =
      if dest ≤ c ∧ c < dest + n then m (src + (c - dest)) else m c := by
  induction n generalizing m with
  | zero => exact (if_neg (by omega)).symm
  | succ n ih =>
    rw [memmoveDown, ih]
    by_cases hc : c = dest + n
    · subst hc
      rw [if_neg (by omega), if_pos (by omega), Function.update_self, Nat.add_sub_cancel_left]
    · rw [Function.update_of_ne hc]
      by_cases hin : dest ≤ c ∧ c < dest + n
      · rw [if_pos hin, if_pos (by omega), Function.update_of_ne (by omega)]
      · rw [if_neg hin, if_neg (by omega)]

theorem memmove_eq (m : Nat → BitVec 8) (dest src n c : Nat) :
    (memmove m dest src n).2 c =
      if dest ≤ c ∧ c < dest + n then m (src + (c - dest)) else m c := by
  rw [memmove]
  obtain hlt | heq | hgt := Nat.lt_trichotomy dest src
  · rw [if_pos hlt]
    exact memcpyFrom_eq (.inl (Nat.le_of_lt hlt)) c
  · subst heq
    rw [if_neg (Nat.lt_irrefl dest), if_neg (Nat.lt_irrefl dest)]
    split_ifs with hin
    · rw [Nat.add_sub_cancel' hin.1]
    · rfl
  · rw [if_neg (Nat.not_lt.2 (Nat.le_of_lt hgt)), if_pos hgt]
    exact memmoveDown_eq (Nat.le_of_lt hgt) c

/-- However the two ranges overlap, the bytes arrive as they were before the call, and no other
byte changes. -/
theorem memmove_overlap_safe (m : Nat → BitVec 8) (dest src n : Nat) :
    (∀ i < n, (memmove m dest src n).2 (dest + i) = m (src + i)) ∧
      ∀ c, c < dest ∨ dest + n ≤ c → (memmove m dest src n).2 c = m c := by
  constructor
  · intro i hi
    rw [memmove_eq, if_pos (by omega), Nat.add_sub_cancel_left]
  · intro c hc
    rw [memmove_eq, if_neg (by omega)]

/-- The bytes of a string literal, its terminating zero included. -/
def cString (s : String) (i : Nat) : BitVec 8 :=
  (s.toList[i]?.map fun c => BitVec.ofNat 8 c.toNat).getD 0

end AdaOS
