import Mathlib.Data.BitVec
import Mathlib.Tactic.Common

namespace AdaOS
set_option autoImplicit true

def ptePresent : BitVec 64 := 0x1
def pteWritable : BitVec 64 := 0x2
def pteUser : BitVec 64 := 0x4
def ptePcd : BitVec 64 := 0x10
def ptePat : BitVec 64 := 0x80
def pteNx : BitVec 64 := 0x8000000000000000

def pteAddrMask : BitVec 64 := 0x000ffffffffff000

def pteGetAddr (entry : BitVec 64) : BitVec 64 := entry &&& pteAddrMask

def pteGetFlags (entry : BitVec 64) : BitVec 64 := entry &&& ~~~pteAddrMask

/-- `flag` is set in the entry, as the source tests it. -/
def hasFlag (entry flag : BitVec 64) : Bool := entry &&& flag != 0

/-- `addr & ~(PAGE_SIZE - 1)`. -/
def pageBase (addr : BitVec 64) : BitVec 64 := addr &&& ~~~0xfff

def tableIndex (virt : BitVec 64) (shift : Nat) : Fin 512 :=
  ⟨((virt >>> shift) &&& 0x1ff).toNat, by
    rw [BitVec.toNat_and]
    exact Nat.lt_succ_of_le Nat.and_le_right⟩

def pml4Index (virt : BitVec 64) : Fin 512 := tableIndex virt 39
def pdptIndex (virt : BitVec 64) : Fin 512 := tableIndex virt 30
def pdIndex (virt : BitVec 64) : Fin 512 := tableIndex virt 21
def ptIndex (virt : BitVec 64) : Fin 512 := tableIndex virt 12

/-- Bits 12 to 47 of a virtual address. -/
def pageNumber (virt : BitVec 64) : BitVec 36 := virt.extractLsb' 12 36

theorem tableIndex_val (virt : BitVec 64) (shift : Nat) :
    (tableIndex virt shift).val = virt.toNat / 2 ^ shift % 512 := by
  change ((virt >>> shift) &&& 0x1ff).toNat = _
  rw [BitVec.toNat_and, BitVec.toNat_ushiftRight, Nat.shiftRight_eq_div_pow]
  exact Nat.and_two_pow_sub_one_eq_mod _ 9

theorem pageNumber_toNat (virt : BitVec 64) :
    (pageNumber virt).toNat = virt.toNat / 4096 % 2 ^ 36 := by
  rw [pageNumber, BitVec.extractLsb'_toNat, Nat.shiftRight_eq_div_pow]

theorem pageNumber_eq_iff : pageNumber v = pageNumber w ↔
    pml4Index v = pml4Index w ∧ pdptIndex v = pdptIndex w ∧ pdIndex v = pdIndex w ∧
      ptIndex v = ptIndex w := by
  rw [← BitVec.toNat_inj]
  simp only [pageNumber_toNat, pml4Index, pdptIndex, pdIndex, ptIndex, Fin.ext_iff, tableIndex_val]
  omega

theorem or_addr_of_disjoint (hf : pteGetAddr frame = frame) (hl : pteGetAddr flags = 0) :
    pteGetAddr (frame ||| flags) = frame := by
  rw [pteGetAddr, BitVec.and_comm, BitVec.and_or_distrib_left, BitVec.and_comm,
    BitVec.and_comm pteAddrMask flags]
  rw [pteGetAddr] at hf hl
  rw [hf, hl]
  exact BitVec.or_zero

theorem flags_of_addr (hf : pteGetAddr frame = frame) : pteGetFlags frame = 0 := by
  rw [pteGetFlags, ← hf, pteGetAddr, BitVec.and_assoc, BitVec.and_not_self]
  exact BitVec.and_zero

theorem flags_of_disjoint (hl : pteGetAddr flags = 0) : pteGetFlags flags = flags := by
  have h : flags &&& (pteAddrMask ||| ~~~pteAddrMask) = flags := by
    rw [BitVec.or_not_self]
    exact BitVec.and_allOnes
  rw [BitVec.and_or_distrib_left] at h
  rw [pteGetAddr] at hl
  rw [hl] at h
  exact BitVec.zero_or.symm.trans h

theorem or_flags_of_disjoint (hf : pteGetAddr frame = frame) (hl : pteGetAddr flags = 0) :
    pteGetFlags (frame ||| flags) = flags := by
  have h : pteGetFlags (frame ||| flags) = pteGetFlags frame ||| pteGetFlags flags := by
    simp only [pteGetFlags]
    rw [BitVec.and_comm, BitVec.and_or_distrib_left, BitVec.and_comm,
      BitVec.and_comm _ flags]
  rw [h, flags_of_addr hf, flags_of_disjoint hl]
  exact BitVec.zero_or

theorem pageBase_addr (h : phys.toNat < 2 ^ 52) : pteGetAddr (pageBase phys) = pageBase phys := by
  have hsmall : phys &&& 0xfffffffffffff = phys := by
    apply BitVec.eq_of_toNat_eq
    rw [BitVec.toNat_and]
    exact (Nat.and_two_pow_sub_one_eq_mod _ 52).trans (Nat.mod_eq_of_lt h)
  have hmask : (~~~0xfff : BitVec 64) &&& pteAddrMask = ~~~0xfff &&& 0xfffffffffffff := by decide
  rw [pteGetAddr, pageBase, BitVec.and_assoc, hmask, BitVec.and_comm (~~~0xfff),
    ← BitVec.and_assoc, hsmall]

theorem pageBase_toNat (addr : BitVec 64) : (pageBase addr).toNat = addr.toNat / 4096 * 4096 := by
  have hones : (0xfff : BitVec 64) = (BitVec.allOnes 12).setWidth 64 := by decide
  have hshift : pageBase addr = addr >>> 12 <<< 12 := by
    rw [pageBase, hones]
    ext i hi
    rw [BitVec.getElem_and, BitVec.getElem_not, BitVec.getElem_setWidth, BitVec.getElem_shiftLeft,
      BitVec.getLsbD_allOnes]
    by_cases h : i < 12
    · simp [h]
    · have hback : 12 + (i - 12) = i := by omega
      simp [h, hback, hi]
  have hlt := addr.isLt
  rw [hshift, BitVec.toNat_shiftLeft, BitVec.toNat_ushiftRight]
  simp only [Nat.shiftLeft_eq, Nat.shiftRight_eq_div_pow]
  omega

theorem pageBase_of_dvd (h : 4096 ∣ addr) :
    pageBase (BitVec.ofNat 64 addr) = BitVec.ofNat 64 addr := by
  apply BitVec.eq_of_toNat_eq
  rw [pageBase_toNat, BitVec.toNat_ofNat]
  omega

theorem hasFlag_or : hasFlag (a ||| b) flag = (hasFlag a flag || hasFlag b flag) := by
  simp only [hasFlag]
  rw [BitVec.and_comm, BitVec.and_or_distrib_left, BitVec.and_comm, BitVec.and_comm flag b]
  by_cases ha : a &&& flag = 0
  · have hor : (a &&& flag) ||| (b &&& flag) = b &&& flag := by
      rw [ha]
      exact BitVec.zero_or
    rw [hor, ha]
    rfl
  · have hor : (a &&& flag) ||| (b &&& flag) ≠ 0 := fun h => ha (BitVec.or_eq_zero_iff.1 h).1
    rw [bne_iff_ne.2 ha, bne_iff_ne.2 hor, Bool.true_or]

theorem hasFlag_of_addr (hf : pteGetAddr frame = frame) (hm : pteAddrMask &&& flag = 0) :
    hasFlag frame flag = false := by
  rw [hasFlag, ← hf, pteGetAddr, BitVec.and_assoc, hm]
  simp

theorem hasFlag_present_or (a b : BitVec 64) :
    hasFlag (a ||| b ||| ptePresent) ptePresent = true := by
  rw [hasFlag_or, Bool.or_comm]
  rfl

end AdaOS
