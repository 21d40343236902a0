import Mathlib.Logic.Function.Basic
import Mathlib.Tactic.Common

set_option autoImplicit true

/-- How far apart the terms lie that a new one is made of: the first and the second of the last
`n` terms, and the one that `m` terms follow the first. -/
structure Lags where
  n : Nat
  m : Nat
  one_lt : 1 < n
  m_lt : m < n

namespace Lags

/-- The sequence that begins with `init`. -/
def sequence (l : Lags) (next : α → α → α → α) (init : Nat → α) (k : Nat) : α :=
  if k < l.n then init k
  else next (l.sequence next init (k - l.n)) (l.sequence next init (k - l.n + 1))
    (l.sequence next init (k - l.n + l.m))
termination_by k
decreasing_by
  all_goals
    have hone := l.one_lt
    have hm := l.m_lt
    omega

theorem sequence_of_lt (l : Lags) (next : α → α → α → α) (init : Nat → α) (h : k < l.n) :
    l.sequence next init k = init k := by
  rw [sequence, if_pos h]

theorem sequence_add (l : Lags) (next : α → α → α → α) (init : Nat → α) (k : Nat) :
    l.sequence next init (k + l.n) =
      next (l.sequence next init k) (l.sequence next init (k + 1))
        (l.sequence next init (k + l.m)) := by
  rw [sequence, if_neg (Nat.not_lt.2 (Nat.le_add_left _ _)), Nat.add_sub_cancel]

/-- A circular array holds the `n` terms of a sequence from `N` on. -/
def Window (l : Lags) (x : Nat → α) (N : Nat) (slot : Nat → α) : Prop :=
  ∀ k, N ≤ k → k < N + l.n → slot (k % l.n) = x k

theorem Window.start {l : Lags} {x slot : Nat → α} (h : ∀ k < l.n, slot k = x k) :
    l.Window x 0 slot := by
  intro k _ hk
  rw [Nat.zero_add] at hk
  rw [Nat.mod_eq_of_lt hk]
  exact h k hk

theorem Window.read {l : Lags} {x slot : Nat → α} (h : l.Window x N slot) (hi : i < l.n) :
    slot ((N + i) % l.n) = x (N + i) :=
  h (N + i) (Nat.le_add_right _ _) (Nat.add_lt_add_left hi N)

theorem mod_ne_of_lt {a b n : Nat} (hab : a < b) (hb : b < a + n) : b % n ≠ a % n := by
  intro he
  have hsub : (b - a) % n = 0 := Nat.sub_mod_eq_zero_of_mod_eq he
  rw [Nat.mod_eq_of_lt (by omega)] at hsub
  omega

theorem Window.step {l : Lags} {x slot : Nat → α} (h : l.Window x N slot) :
    l.Window x (N + 1) (Function.update slot (N % l.n) (x (N + l.n))) := by
  intro k hk hlt
  obtain rfl | hne := Nat.eq_or_lt_of_le (Nat.le_of_lt_succ (by omega : k < N + l.n + 1))
  · rw [Nat.add_mod_right, Function.update_self]
  · rw [Function.update_of_ne (mod_ne_of_lt hk hne)]
    exact h k (Nat.le_of_succ_le hk) hne

end Lags

namespace Mt19937

def lags : Lags := ⟨624, 397, by decide, by decide⟩

/-- The first terms, each made of the one before it. -/
def initial (seed : BitVec 32) : Nat → BitVec 32
  | 0 => seed
  | i + 1 =>
    1812433253#32 * (initial seed i ^^^ initial seed i >>> 30) + .ofNat 32 (i + 1)

/-- The upper bit of one word and the lower 31 bits of another. -/
def join (upper lower : BitVec 32) : BitVec 32 := upper &&& 0x80000000 ||| lower &&& 0x7fffffff

/-- The product with the matrix `A`. -/
def twist (x : BitVec 32) : BitVec 32 :=
  if x.getLsbD 0 then x >>> 1 ^^^ 0x9908b0df else x >>> 1

def sequence (seed : BitVec 32) : Nat → BitVec 32 :=
  lags.sequence (fun first second x => x ^^^ twist (join first second)) (initial seed)

def temper (x : BitVec 32) : BitVec 32 :=
  let y := x ^^^ x >>> 11
  let y := y ^^^ y <<< 7 &&& 0x9d2c5680
  let y := y ^^^ y <<< 15 &&& 0xefc60000
  y ^^^ y >>> 18

theorem sequence_of_lt (seed : BitVec 32) (h : k < 624) : sequence seed k = initial seed k :=
  lags.sequence_of_lt _ _ h

theorem sequence_add (seed : BitVec 32) (k : Nat) :
    sequence seed (k + 624) =
      sequence seed (k + 397) ^^^ twist (join (sequence seed k) (sequence seed (k + 1))) :=
  lags.sequence_add _ _ k

end Mt19937
