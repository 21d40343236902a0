import AdaOS.Pmm

namespace AdaOS
set_option autoImplicit true

variable {m : PageMapping}

/-- A mapping whose address range does not wrap around. -/
structure PageMapping.Unwrapped (m : PageMapping) : Prop where
  ordered : m.pageStartIndex ≤ m.pageEndIndex
  fits : m.offset + (m.pageEndIndex - m.pageStartIndex) * pageSize < 2 ^ 64

theorem holdsIndex_iff : m.holdsIndex i = true ↔ m.pageStartIndex < i ∧ i < m.pageEndIndex := by
  simp only [PageMapping.holdsIndex, Bool.and_eq_true, decide_eq_true_eq]

theorem PageMapping.Unwrapped.ptrOf_eq (hm : m.Unwrapped) (hi : m.holdsIndex i = true) :
    m.ptrOf i = m.offset + (i - m.pageStartIndex) * pageSize := by
  rw [holdsIndex_iff] at hi
  have hf := hm.fits
  have hle : (i - m.pageStartIndex) * pageSize ≤
      (m.pageEndIndex - m.pageStartIndex) * pageSize := Nat.mul_le_mul_right _ (by omega)
  exact u64_of_lt (by omega)

theorem PageMapping.Unwrapped.lt_ptrOf (hm : m.Unwrapped) (hi : m.holdsIndex i = true) :
    m.offset < m.ptrOf i := by
  rw [hm.ptrOf_eq hi]
  rw [holdsIndex_iff] at hi
  simp only [pageSize]
  omega

theorem PageMapping.Unwrapped.holdsPtr_iff (hm : m.Unwrapped) :
    m.holdsPtr p = true ↔
      m.offset < p ∧ p < m.offset + (m.pageEndIndex - m.pageStartIndex) * pageSize := by
  have hf := hm.fits
  have hs : m.segmentSize = (m.pageEndIndex - m.pageStartIndex) * pageSize :=
    u64_of_lt (by omega)
  simp only [PageMapping.holdsPtr, hs, u64_of_lt hf, Bool.and_eq_true, decide_eq_true_eq]

theorem PageMapping.Unwrapped.ne_zero_of_holdsPtr (hm : m.Unwrapped) (hp : m.holdsPtr p = true) :
    p ≠ 0 := Nat.ne_of_gt (Nat.zero_lt_of_lt (hm.holdsPtr_iff.1 hp).1)

theorem PageMapping.Unwrapped.lt_of_holdsPtr (hm : m.Unwrapped) (hp : m.holdsPtr p = true) :
    m.pageStartIndex < m.pageEndIndex := by
  rw [hm.holdsPtr_iff] at hp
  simp only [pageSize] at hp
  omega

theorem PageMapping.Unwrapped.holdsPtr_ptrOf (hm : m.Unwrapped) (hi : m.holdsIndex i = true) :
    m.holdsPtr (m.ptrOf i) = true := by
  rw [hm.holdsPtr_iff, hm.ptrOf_eq hi]
  rw [holdsIndex_iff] at hi
  simp only [pageSize]
  omega

theorem PageMapping.Unwrapped.indexOf_ptrOf (hm : m.Unwrapped) (hi : m.holdsIndex i = true) :
    m.indexOf (m.ptrOf i) = i := by
  rw [hm.ptrOf_eq hi, PageMapping.indexOf, Nat.add_sub_cancel_left,
    Nat.mul_div_cancel _ (by decide)]
  rw [holdsIndex_iff] at hi
  omega

theorem PageMapping.Unwrapped.indexOf_lt (hm : m.Unwrapped) (hp : m.holdsPtr p = true) :
    m.indexOf p < m.pageEndIndex := by
  rw [hm.holdsPtr_iff] at hp
  simp only [PageMapping.indexOf, pageSize] at *
  omega

theorem PageMapping.Unwrapped.ptrOf_indexOf (hm : m.Unwrapped) (ho : pageSize ∣ m.offset)
    (hp : m.holdsPtr p = true) (ha : p % pageSize = 0) :
    m.holdsIndex (m.indexOf p) = true ∧ m.ptrOf (m.indexOf p) = p := by
  rw [hm.holdsPtr_iff] at hp
  obtain ⟨k, hk⟩ := ho
  have hi : m.holdsIndex (m.indexOf p) = true := by
    rw [holdsIndex_iff]
    simp only [PageMapping.indexOf, pageSize] at *
    omega
  refine ⟨hi, ?_⟩
  rw [hm.ptrOf_eq hi]
  simp only [PageMapping.indexOf, pageSize] at *
  omega

end AdaOS
