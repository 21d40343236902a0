import Mathlib.Algebra.Group.Nat.Defs
import Mathlib.Tactic.Common

namespace AdaOS
set_option autoImplicit true

/-- The ways a kernel routine can stop without returning to its caller. -/
inductive Fault where
  | panic (msg : String)
  | outOfBounds
  | diverges
  deriving DecidableEq, Repr

def u64 (n : Nat) : Nat := n % 2 ^ 64

theorem u64_of_lt (h : n < 2 ^ 64) : u64 n = n := Nat.mod_eq_of_lt h

def sub64 (m n : Nat) : Nat := u64 (m + 2 ^ 64 - n)

theorem sub64_of_le (h : n ≤ m) (hm : m < 2 ^ 64) : sub64 m n = m - n := by
  have he : m + 2 ^ 64 - n = m - n + 2 ^ 64 := by omega
  rw [sub64, he, u64, Nat.add_mod_right, Nat.mod_eq_of_lt (by omega)]

def pageSize : Nat := 4096

/-- `ALIGN_UP` for an alignment that is a power of two. -/
def alignUp (value align : Nat) : Nat := u64 (value + align - 1) / align * align

theorem alignUp_eq (h : value + align ≤ 2 ^ 64) :
    alignUp value align = (value + align - 1) / align * align := by
  have hlt : value + align - 1 < 2 ^ 64 := by omega
  rw [alignUp, u64_of_lt hlt]

theorem alignUp_dvd (value align : Nat) : align ∣ alignUp value align :=
  Nat.dvd_mul_left _ _

theorem le_alignUp (h : value + align ≤ 2 ^ 64) (ha : 0 < align) :
    value ≤ alignUp value align := by
  rw [alignUp_eq h]
  have hd := Nat.div_add_mod (value + align - 1) align
  have hm := Nat.mod_lt (value + align - 1) ha
  rw [Nat.mul_comm] at hd
  omega

theorem alignUp_lt (h : value + align ≤ 2 ^ 64) (ha : 0 < align) :
    alignUp value align < value + align := by
  rw [alignUp_eq h]
  have hd := Nat.div_mul_le_self (value + align - 1) align
  omega

theorem alignUp_of_dvd (h : value + align ≤ 2 ^ 64) (ha : 0 < align) (hd : align ∣ value) :
    alignUp value align = value := by
  have hle := le_alignUp h ha
  have hlt := alignUp_lt h ha
  obtain ⟨k, hk⟩ := hd
  obtain ⟨l, hl⟩ := alignUp_dvd value align
  rw [hl, hk] at hle hlt ⊢
  have hkl : k ≤ l := Nat.le_of_mul_le_mul_left hle ha
  have hlk : l < k + 1 := by
    apply Nat.lt_of_mul_lt_mul_left (a := align)
    rw [Nat.mul_add, Nat.mul_one]
    exact hlt
  rw [Nat.le_antisymm (Nat.le_of_lt_succ hlk) hkl]

theorem bind_ok {x : Except ε α} {f : α → Except ε β} (h : (x >>= f) = .ok r) :
    ∃ a, x = .ok a ∧ f a = .ok r := by
  cases x with
  | error e => cases h
  | ok a => exact ⟨a, rfl, h⟩

theorem bind_error {x : Except ε α} {f : α → Except ε β} (h : (x >>= f) = .error e) :
    x = .error e ∨ ∃ a, x = .ok a ∧ f a = .error e := by
  cases x with
  | error e' =>
    cases h
    exact .inl rfl
  | ok a => exact .inr ⟨a, rfl, h⟩

theorem bind_congr_ok {x : Except ε α} {f g : α → Except ε β} (h : ∀ a, x = .ok a → f a = g a) :
    (x >>= f) = (x >>= g) := by
  cases x with
  | error e => rfl
  | ok a => exact h a rfl

theorem bind_of_ok {x : Except ε α} (h : x = .ok a) (f : α → Except ε β) :
    (x >>= f) = f a := by
  rw [h]
  rfl

/-- The computation returns or stops with a fault. -/
def Ends (x : Except Fault α) : Prop := x ≠ .error .diverges

namespace Ends
variable {x : Except Fault α} {f : α → Except Fault β}

theorem ok (a : α) : Ends (.ok a) := fun h => nomatch h

theorem outOfBounds : Ends (α := α) (.error .outOfBounds) := fun h => nomatch h

theorem panic (msg : String) : Ends (α := α) (.error (.panic msg)) := fun h => nomatch h

theorem bind (hx : Ends x) (hf : ∀ a, x = .ok a → Ends (f a)) : Ends (x >>= f) := by
  intro h
  rcases bind_error h with h | ⟨a, ha, h⟩
  · exact hx h
  · exact hf a ha h

theorem bind_diverges (hx : Ends x) :
    x >>= f = .error .diverges ↔ ∃ a, x = .ok a ∧ f a = .error .diverges := by
  constructor
  · intro h
    exact (bind_error h).resolve_left hx
  · rintro ⟨a, ha, h⟩
    exact (bind_of_ok ha f).trans h

theorem bind_diverges_left (hf : ∀ a, Ends (f a)) :
    x >>= f = .error .diverges ↔ x = .error .diverges := by
  constructor
  · intro h
    exact (bind_error h).resolve_right fun ⟨a, _, h⟩ => hf a h
  · rintro rfl
    rfl

end Ends

end AdaOS
