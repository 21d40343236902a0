import AdaOS.MersenneTwister
import AdaOS.Random

namespace AdaOS
set_option autoImplicit true
open Mt19937

theorem maskedJoin_eq (upper lower : BitVec 32) :
    (upper.setWidth 64 &&& UMASK ||| lower.setWidth 64 &&& LMASK).setWidth 32 =
      join upper lower := by
  have hu : UMASK.setWidth 32 = 0x80000000 := by decide
  have hl : LMASK.setWidth 32 = 0x7fffffff := by decide
  rw [BitVec.setWidth_or, BitVec.setWidth_and, BitVec.setWidth_and, hu, hl,
    BitVec.setWidth_setWidth_of_le _ (by decide), BitVec.setWidth_setWidth_of_le _ (by decide),
    BitVec.setWidth_eq, BitVec.setWidth_eq, join]

theorem narrowed_xor (x y : BitVec 32) (mask : BitVec 64) :
    (x.setWidth 64 ^^^ y.setWidth 64 &&& mask).setWidth 32 = x ^^^ y &&& mask.setWidth 32 := by
  rw [BitVec.setWidth_xor, BitVec.setWidth_and, BitVec.setWidth_setWidth_of_le _ (by decide),
    BitVec.setWidth_setWidth_of_le _ (by decide), BitVec.setWidth_eq, BitVec.setWidth_eq]

theorem twist_eq (x : BitVec 32) :
    (if x.setWidth 64 &&& 1 ≠ 0 then ((x >>> 1).setWidth 64 ^^^ _a).setWidth 32 else x >>> 1) =
      twist x := by
  have ha : ((x >>> 1).setWidth 64 ^^^ _a).setWidth 32 = x >>> 1 ^^^ 0x9908b0df := by
    have hmask : _a.setWidth 32 = 0x9908b0df := by decide
    rw [BitVec.setWidth_xor, BitVec.setWidth_setWidth_of_le _ (by decide), BitVec.setWidth_eq,
      hmask]
  have hodd : x.setWidth 64 &&& 1 ≠ 0 ↔ x.getLsbD 0 = true := by
    change x.setWidth 64 &&& 1#64 ≠ 0 ↔ _
    rw [BitVec.and_one_eq_setWidth_ofBool_getLsbD, BitVec.getLsbD_setWidth]
    cases x.getLsbD 0 with
    | false => decide
    | true => decide
  rw [ha, twist]
  simp only [hodd]

theorem tempered_eq (x : BitVec 32) : tempered x = temper x := by
  have hb : _b.setWidth 32 = 0x9d2c5680 := by decide
  have hc : _c.setWidth 32 = 0xefc60000 := by decide
  simp only [tempered, narrowed_xor, hb, hc]
  rfl

theorem nextSeed_eq (seed : BitVec 32) (i : Nat) :
    (_f * (seed ^^^ seed >>> (_w - 2)).setWidth 64 + .ofNat 64 i).setWidth 32 =
      1812433253#32 * (seed ^^^ seed >>> 30) + .ofNat 32 i := by
  have hf : _f.setWidth 32 = 1812433253#32 := by decide
  rw [BitVec.setWidth_add _ _ (by decide), BitVec.setWidth_mul _ _ (by decide),
    BitVec.setWidth_setWidth_of_le _ (by decide), BitVec.setWidth_eq, hf,
    BitVec.setWidth_ofNat_of_le (by decide)]
  rfl

theorem MtState.read_eq (s : MtState) {k : Nat} (hk : k < 624) :
    s.read k = .ok (s.stateArray k) := by
  rw [MtState.read, if_pos ⟨Int.natCast_nonneg k, Int.ofNat_lt.2 hk⟩, Int.toNat_natCast]

theorem MtState.write_eq (s : MtState) {k : Nat} (hk : k < 624) (x : BitVec 32) :
    s.write k x = .ok { s with stateArray := Function.update s.stateArray k x } := by
  rw [MtState.write, if_pos ⟨Int.natCast_nonneg k, Int.ofNat_lt.2 hk⟩, Int.toNat_natCast]

theorem circular_eq {k i : Nat} (hk : k < 624) (hi : i < 624) :
    circular (k - (_n - i)) = ((k + i) % 624 : Nat) := by
  rw [circular, _n]
  split_ifs <;> omega

/-- The word that a call puts into the place of the index. -/
def MtState.nextWord (s : MtState) (k : Nat) : BitVec 32 :=
  s.stateArray ((k + 397) % 624) ^^^
    twist (join (s.stateArray k) (s.stateArray ((k + 1) % 624)))

theorem randomUint32_eq (s : MtState) {k : Nat} (hk : k < 624) (hindex : s.stateIndex = k) :
    randomUint32 s = .ok (temper (s.nextWord k),
      ⟨Function.update s.stateArray k (s.nextWord k), ((k + 1) % 624 : Nat)⟩) := by
  have hj₁ : circular (k - (_n - 1)) = ((k + 1) % 624 : Nat) :=
    circular_eq (i := 1) hk (by decide)
  have hj₂ : circular (k - (_n - _m)) = ((k + 397) % 624 : Nat) :=
    circular_eq (i := 397) hk (by decide)
  have hwrap : (if (k : Int) + 1 ≥ _n then 0 else (k : Int) + 1) = ((k + 1) % 624 : Nat) := by
    rw [_n]
    split_ifs <;> omega
  simp only [randomUint32, hindex, hj₁, hj₂, hwrap, s.read_eq hk,
    s.read_eq (Nat.mod_lt (k + 1) (show 0 < 624 by decide)),
    s.read_eq (Nat.mod_lt (k + 397) (show 0 < 624 by decide)), s.write_eq hk, maskedJoin_eq,
    twist_eq, tempered_eq]
  rfl

/-- The circular array has the last 624 terms, and the index points at the first of them. -/
structure Generated (seed : BitVec 32) (N : Nat) (s : MtState) : Prop where
  window : lags.Window (sequence seed) N s.stateArray
  index : s.stateIndex = (N % 624 : Nat)

theorem Generated.read (h : Generated seed N s) (hi : i < 624) :
    s.stateArray ((N % 624 + i) % 624) = sequence seed (N + i) := by
  rw [Nat.mod_add_mod]
  exact h.window.read hi

theorem Generated.nextWord (h : Generated seed N s) :
    s.nextWord (N % 624) = sequence seed (N + 624) := by
  have hfirst : s.stateArray (N % 624) = sequence seed N := h.window.read (i := 0) (by decide)
  rw [MtState.nextWord, hfirst, h.read (i := 1) (by decide), h.read (i := 397) (by decide),
    sequence_add]

theorem Generated.step (h : Generated seed N s) :
    ∃ s', randomUint32 s = .ok (temper (sequence seed (N + 624)), s') ∧
      Generated seed (N + 1) s' := by
  have hcall := randomUint32_eq s (Nat.mod_lt N (show 0 < 624 by decide)) h.index
  rw [h.nextWord, Nat.mod_add_mod] at hcall
  exact ⟨_, hcall, ⟨h.window.step, rfl⟩⟩

theorem setupRandomFrom_eq (hfuel : 624 ≤ i + 1 + fuel)
    (h : ∀ k ≤ i, s.stateArray k = initial seed k) :
    ∃ s', setupRandomFrom (initial seed i) (i + 1) s fuel = .ok s' ∧
      ∀ k < 624, s'.stateArray k = initial seed k := by
  induction fuel generalizing i s with
  | zero => exact ⟨s, rfl, fun k hk => h k (Nat.le_of_lt_succ (Nat.lt_of_lt_of_le hk hfuel))⟩
  | succ fuel ih =>
    rw [setupRandomFrom, _n]
    by_cases hlt : i + 1 < 624
    · have hwrite := s.write_eq hlt (initial seed (i + 1))
      have hmore : ∀ k ≤ i + 1, Function.update s.stateArray (i + 1) (initial seed (i + 1)) k =
          initial seed k := by
        intro k hk
        obtain rfl | hne := eq_or_ne k (i + 1)
        · rw [Function.update_self]
        · rw [Function.update_of_ne hne]
          exact h k (by omega)
      rw [if_pos hlt, nextSeed_eq, ← initial]
      simp only [hwrite]
      exact ih (by omega) hmore
    · rw [if_neg hlt]
      exact ⟨s, rfl, fun k hk => h k (by omega)⟩

theorem setupRandom_generated (seed : BitVec 32) (s₀ : MtState) :
    ∃ s, setupRandom seed s₀ = .ok s ∧ Generated seed 0 s := by
  have hwrite : s₀.write 0 seed =
      .ok { s₀ with stateArray := Function.update s₀.stateArray 0 seed } :=
    s₀.write_eq (k := 0) (by decide) seed
  have hfirst : ∀ k ≤ 0, Function.update s₀.stateArray 0 seed k = initial seed k := by
    intro k hk
    obtain rfl := Nat.le_zero.1 hk
    rw [Function.update_self, initial]
  obtain ⟨s, hloop, hall⟩ := setupRandomFrom_eq
    (s := { s₀ with stateArray := Function.update s₀.stateArray 0 seed })
    (show 624 ≤ 0 + 1 + _n by decide) hfirst
  rw [initial] at hloop
  have hrun : setupRandom seed s₀ = .ok { s with stateIndex := 0 } := by
    rw [setupRandom, hwrite]
    generalize _n = fuel at hloop ⊢
    change (setupRandomFrom seed 1 _ fuel >>= _) = _
    rw [hloop]
    rfl
  refine ⟨_, hrun, .start fun k hk => ?_, rfl⟩
  rw [sequence_of_lt seed hk]
  exact hall k hk

theorem afterCalls_generated (seed : BitVec 32) (s₀ : MtState) (N : Nat) :
    ∃ s, afterCalls seed s₀ N = .ok s ∧ Generated seed N s := by
  induction N with
  | zero => exact setupRandom_generated seed s₀
  | succ N ih =>
    obtain ⟨s, hrun, hs⟩ := ih
    obtain ⟨s', hcall, hs'⟩ := hs.step
    refine ⟨s', ?_, hs'⟩
    rw [afterCalls, hrun]
    change (randomUint32 s >>= fun r => pure r.2) = _
    rw [hcall]
    rfl

/-- The generator is MT19937: after any number of calls the next value is the tempered term of the
sequence, and the index is one of the array. -/
theorem randomUint32_mt19937 (seed : BitVec 32) (s₀ : MtState) (N : Nat) :
    ∃ s s', afterCalls seed s₀ N = .ok s ∧ 0 ≤ s.stateIndex ∧ s.stateIndex ≤ 623 ∧
      randomUint32 s = .ok (temper (sequence seed (624 + N)), s') := by
  obtain ⟨s, hrun, hs⟩ := afterCalls_generated seed s₀ N
  obtain ⟨s', hcall, _⟩ := hs.step
  have hindex := hs.index
  have hlt := Nat.mod_lt N (show 0 < 624 by decide)
  rw [Nat.add_comm] at hcall
  exact ⟨s, s', hrun, by omega, by omega, hcall⟩

end AdaOS
