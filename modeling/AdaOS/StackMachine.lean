import Mathlib.Data.BitVec
import Mathlib.Logic.Function.Basic
import Mathlib.Tactic.Common

namespace StackMachine
set_option autoImplicit true

/-- The registers beside the stack pointer, the stack pointer, and the quadwords of memory. -/
structure State (R : Type) where
  reg : R → BitVec 64
  rsp : BitVec 64
  mem : BitVec 64 → BitVec 64

inductive Instr (R : Type) where
  | pushImm (x : BitVec 64)
  | push (r : R)
  | pop (r : R)
  | movRsp (r : R)
  | addRsp (x : BitVec 64)
  | call
  deriving DecidableEq, Repr

/-- The address of the `i`-th quadword from `a` on. -/
def slot (a : BitVec 64) (i : Nat) : BitVec 64 := a + BitVec.ofNat 64 (8 * i)

theorem slot_zero (a : BitVec 64) : slot a 0 = a := BitVec.add_zero a

theorem slot_slot (a : BitVec 64) (i j : Nat) : slot (slot a i) j = slot a (i + j) := by
  rw [slot, slot, slot, BitVec.add_assoc, ← BitVec.ofNat_add, ← Nat.mul_add]

theorem slot_succ_sub (a : BitVec 64) (i : Nat) : slot (a - 8) (i + 1) = slot a i := by
  have h : a - 8 + 8 = a := BitVec.sub_add_cancel a 8
  rw [Nat.add_comm, ← slot_slot]
  exact congrArg (slot · i) h

theorem slot_inj (hi : i < 2 ^ 61) (hj : j < 2 ^ 61) (h : slot a i = slot a j) : i = j := by
  have he := congrArg BitVec.toNat ((BitVec.add_right_inj _).1 h)
  rw [BitVec.toNat_ofNat, BitVec.toNat_ofNat, Nat.mod_eq_of_lt (by omega),
    Nat.mod_eq_of_lt (by omega)] at he
  omega

section Stack
variable {R : Type}

def State.push (s : State R) (x : BitVec 64) : State R :=
  { s with rsp := s.rsp - 8, mem := Function.update s.mem (s.rsp - 8) x }

def State.pushAll (s : State R) (xs : List (BitVec 64)) : State R := xs.foldl State.push s

theorem State.pushAll_concat (s : State R) (xs : List (BitVec 64)) (x : BitVec 64) :
    s.pushAll (xs ++ [x]) = (s.pushAll xs).push x := List.foldl_append

theorem State.pushAll_append (s : State R) (xs ys : List (BitVec 64)) :
    s.pushAll (xs ++ ys) = (s.pushAll xs).pushAll ys := List.foldl_append

theorem State.pushAll_reg (s : State R) (xs : List (BitVec 64)) : (s.pushAll xs).reg = s.reg := by
  induction xs generalizing s with
  | nil => rfl
  | cons x xs ih => exact ih (s.push x)

theorem State.slot_pushAll (s : State R) (xs : List (BitVec 64)) (i : Nat) :
    slot (s.pushAll xs).rsp (xs.length + i) = slot s.rsp i := by
  induction xs generalizing s i with
  | nil =>
    rw [List.length_nil, Nat.zero_add]
    rfl
  | cons x xs ih =>
    have h := ih (s.push x) (i + 1)
    rw [← slot_succ_sub s.rsp, List.length_cons, Nat.add_assoc, Nat.add_comm 1]
    exact h

/-- The words pushed lie on the stack in the reverse of the order of the pushes. -/
theorem State.pushAll_word (s : State R) (xs : List (BitVec 64)) (hn : xs.length < 2 ^ 61)
    (hi : i < xs.length) :
    (s.pushAll xs).mem (slot (s.pushAll xs).rsp i) =
      xs.reverse.get ⟨i, by simpa using hi⟩ := by
  induction xs using List.reverseRecOn generalizing i with
  | nil => cases hi
  | append_singleton xs x ih =>
    rw [List.length_append, List.length_singleton] at hn hi
    have hr : (s.pushAll (xs ++ [x])).rsp = (s.pushAll xs).rsp - 8 := by
      rw [State.pushAll_concat]
      rfl
    simp only [List.get_eq_getElem, List.reverse_append, List.reverse_singleton,
      List.singleton_append]
    rw [hr, State.pushAll_concat]
    cases i with
    | zero =>
      rw [slot_zero]
      exact Function.update_self _ _ _
    | succ i =>
      have hne : slot ((s.pushAll xs).rsp - 8) (i + 1) ≠ (s.pushAll xs).rsp - 8 := by
        intro he
        rw [← slot_zero ((s.pushAll xs).rsp - 8), slot_slot] at he
        have h := slot_inj (by omega) (by omega) he
        omega
      have h := ih (by omega) (Nat.lt_of_succ_lt_succ hi)
      rw [List.get_eq_getElem] at h
      rw [List.getElem_cons_succ, ← h, ← slot_succ_sub (s.pushAll xs).rsp i]
      exact Function.update_of_ne hne _ _

end Stack

section Machine
variable {R : Type} [DecidableEq R]

def State.pop (s : State R) (r : R) : State R :=
  { s with reg := Function.update s.reg r (s.mem s.rsp), rsp := s.rsp + 8 }

def State.popAll (s : State R) (rs : List R) : State R := rs.foldl State.pop s

theorem State.popAll_rsp (s : State R) (rs : List R) :
    (s.popAll rs).rsp = slot s.rsp rs.length := by
  induction rs generalizing s with
  | nil => exact (slot_zero s.rsp).symm
  | cons r rs ih =>
    rw [List.length_cons, Nat.add_comm, ← slot_slot]
    exact ih (s.pop r)

theorem State.popAll_reg_of_not_mem (s : State R) (h : r ∉ rs) :
    (s.popAll rs).reg r = s.reg r := by
  induction rs generalizing s with
  | nil => rfl
  | cons r' rs ih =>
    rw [List.mem_cons, not_or] at h
    have hr := ih (s.pop r') h.2
    exact hr.trans (Function.update_of_ne h.1 _ _)

theorem State.popAll_reg (s : State R) (hn : rs.Nodup) (hi : i < rs.length) :
    (s.popAll rs).reg rs[i] = s.mem (slot s.rsp i) := by
  induction rs generalizing s i with
  | nil => cases hi
  | cons r rs ih =>
    rw [List.nodup_cons] at hn
    cases i with
    | zero =>
      rw [slot_zero]
      exact (State.popAll_reg_of_not_mem _ hn.1).trans (Function.update_self _ _ _)
    | succ i =>
      have hs : slot s.rsp (i + 1) = slot (s.rsp + 8) i := by
        rw [Nat.add_comm, ← slot_slot]
        rfl
      rw [hs]
      exact ih (s.pop r) hn.2 (Nat.lt_of_succ_lt_succ hi)

/-- One instruction; `callee` stands for the routine called, from the call to its return. -/
def exec (callee : State R → State R) (s : State R) : Instr R → State R
  | .pushImm x => s.push x
  | .push r => s.push (s.reg r)
  | .pop r => s.pop r
  | .movRsp r => { s with reg := Function.update s.reg r s.rsp }
  | .addRsp x => { s with rsp := s.rsp + x }
  | .call => callee s

def run (callee : State R → State R) (s : State R) (p : List (Instr R)) : State R :=
  p.foldl (exec callee) s

theorem run_append (callee : State R → State R) (s : State R) (p q : List (Instr R)) :
    run callee s (p ++ q) = run callee (run callee s p) q := List.foldl_append

theorem run_pushImm (callee : State R → State R) (s : State R) (xs : List (BitVec 64)) :
    run callee s (xs.map .pushImm) = s.pushAll xs := List.foldl_map

theorem run_pop (callee : State R → State R) (s : State R) (rs : List R) :
    run callee s (rs.map .pop) = s.popAll rs := List.foldl_map

theorem run_push (callee : State R → State R) (s : State R) (rs : List R) :
    run callee s (rs.map .push) = s.pushAll (rs.map s.reg) := by
  induction rs generalizing s with
  | nil => rfl
  | cons r rs ih => exact ih (s.push (s.reg r))

/-- The code that saves `rs`, hands the stack pointer over in `d`, calls, and restores `rs`. -/
def around (d : R) (rs : List R) : List (Instr R) :=
  rs.map .push ++ [.movRsp d, .call] ++ rs.reverse.map .pop

/-- The state in which `around d rs` makes its call. -/
def State.saved (s : State R) (d : R) (rs : List R) : State R :=
  { s.pushAll (rs.map s.reg) with
    reg := Function.update (s.pushAll (rs.map s.reg)).reg d (s.pushAll (rs.map s.reg)).rsp }

theorem State.saved_mem (s : State R) (d : R) (rs : List R) :
    (s.saved d rs).mem = (s.pushAll (rs.map s.reg)).mem := rfl

theorem State.saved_rsp (s : State R) (d : R) (rs : List R) :
    (s.saved d rs).rsp = (s.pushAll (rs.map s.reg)).rsp := rfl

theorem State.saved_reg_self (s : State R) (d : R) (rs : List R) :
    (s.saved d rs).reg d = (s.saved d rs).rsp := Function.update_self _ _ _

theorem run_around (callee : State R → State R) (s : State R) (d : R) (rs : List R) :
    run callee s (around d rs) = (callee (s.saved d rs)).popAll rs.reverse := by
  rw [around, run_append, run_append, run_push, run_pop]
  rfl

theorem around_restores (callee : State R → State R) (s : State R) (d : R) (hn : rs.Nodup)
    (hl : rs.length < 2 ^ 61) (hp : (callee (s.saved d rs)).rsp = (s.saved d rs).rsp)
    (hw : ∀ i < rs.length, (callee (s.saved d rs)).mem (slot (s.saved d rs).rsp i) =
      (s.saved d rs).mem (slot (s.saved d rs).rsp i)) :
    (run callee s (around d rs)).rsp = s.rsp ∧
      ∀ r ∈ rs, (run callee s (around d rs)).reg r = s.reg r := by
  rw [run_around]
  constructor
  · have h := s.slot_pushAll (rs.map s.reg) 0
    rw [Nat.add_zero, slot_zero, List.length_map] at h
    rw [State.popAll_rsp, hp, List.length_reverse]
    exact h
  · intro r hr
    obtain ⟨i, hi, he⟩ := List.getElem_of_mem (List.mem_reverse.2 hr)
    have hi' : i < rs.length := by
      rw [List.length_reverse] at hi
      exact hi
    have hword := s.pushAll_word (rs.map s.reg) (by rwa [List.length_map])
      (by rwa [List.length_map])
    rw [← he, State.popAll_reg _ (List.nodup_reverse.2 hn) hi, hp, hw i hi']
    refine hword.trans ?_
    simp only [← List.map_reverse, List.get_eq_getElem, List.getElem_map]

end Machine

end StackMachine
