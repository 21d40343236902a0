import AdaOS.RandomRuns

namespace AdaOS
set_option autoImplicit true
open Mt19937

/-- `%` of 32-bit words. By zero it is a divide error, whose handler prints the registers and
returns to the same instruction, for ever. -/
def umod32 (x y : BitVec 32) : Except Fault (BitVec 32) :=
  if y = 0 then .error .diverges else .ok (x % y)

/-- `random_range`, with the texts it passes to `k_err`. -/
def randomRange (s : MtState) (min max : BitVec 32) :
    Except Fault (BitVec 32 × MtState × List String) :=
  if min > max then .ok (-1, s, ["Bad random range!"])
  else if max = 0 then .ok (min, s, [])
  else do
    let range := max - min + 1
    let (x, s) ← randomUint32 s
    let r ← umod32 x range
    return (min + r, s, [])

inductive Rarity where
  | common
  | uncommon
  | rare
  | epic
  | legendary
  | mythical
  deriving DecidableEq, Repr

/-- `NUM_COMMON_LOGOS` and so on, the sizes of the arrays of logos. -/
def Rarity.numLogos : Rarity → BitVec 32
  | .common => 4
  | .uncommon => 2
  | .rare => 3
  | .epic => 4
  | .legendary => 3
  | .mythical => 2

/-- The index at which `print_rarity` reads its array. -/
def printRarity (s : MtState) (r : Rarity) : Except Fault (BitVec 32 × MtState × List String) :=
  randomRange s 0 (r.numLogos - 1)

/-- A state of the generator, whose index is always one of the array. -/
structure Generator extends MtState where
  index_mem : 0 ≤ stateIndex ∧ stateIndex < _n

/-- A value is drawn within the bounds: the next word of the generator is reduced to an offset, and
the sum of `min` and the offset does not wrap around. -/
structure Drawn (s : MtState) (min max r : BitVec 32) (s' : MtState) : Prop where
  returns : randomRange s min max = .ok (r, s', [])
  min_le : min ≤ r
  le_max : r ≤ max
  no_wrap : max ≠ 0 → ∃ x, randomUint32 s = .ok (x, s') ∧
    r.toNat = min.toNat + (x % (max - min + 1)).toNat

/-- The static state before `setup_random`. -/
def Generator.unset : Generator := ⟨⟨fun _ => 0, 0⟩, by decide, by decide⟩

theorem setupRandom_generator (seed : BitVec 32) (s₀ : MtState) :
    ∃ g : Generator, setupRandom seed s₀ = .ok g.toMtState := by
  obtain ⟨s, hrun, hs⟩ := setupRandom_generated seed s₀
  have hindex := hs.index
  exact ⟨⟨s, by omega, by rw [_n]; omega⟩, hrun⟩

theorem Generator.randomUint32 (g : Generator) :
    ∃ x, ∃ g' : Generator, AdaOS.randomUint32 g.toMtState = .ok (x, g'.toMtState) := by
  obtain ⟨hnonneg, hlt⟩ := g.index_mem
  rw [_n] at hlt
  have hmod := Nat.mod_lt (g.stateIndex.toNat + 1) (show 0 < 624 by decide)
  have hcall := randomUint32_eq g.toMtState (k := g.stateIndex.toNat) (by omega) (by omega)
  exact ⟨_, ⟨_, Int.natCast_nonneg _, by rw [_n]; exact Int.ofNat_lt.2 hmod⟩, hcall⟩

theorem span_eq_zero_iff {min max : BitVec 32} (h : min ≤ max) :
    max - min + 1 = 0 ↔ min = 0 ∧ max = -1 := by
  bv_omega

theorem toNat_span {min max : BitVec 32} (h : min ≤ max) (hspan : max - min + 1 ≠ 0) :
    (max - min + 1).toNat = max.toNat - min.toNat + 1 := by
  bv_omega

theorem randomRange_eq {s : MtState} {min max : BitVec 32} (h : min ≤ max) (hmax : max ≠ 0)
    (hcall : randomUint32 s = .ok (x, s')) :
    randomRange s min max = (do
      let r ← umod32 x (max - min + 1)
      return (min + r, s', [])) := by
  have hle : ¬min > max := BitVec.not_lt.2 h
  rw [randomRange, if_neg hle, if_neg hmax, hcall]
  rfl

theorem drawn_of_span {s : MtState} {min max : BitVec 32} (h : min ≤ max) (hmax : max ≠ 0)
    (hspan : max - min + 1 ≠ 0) (hcall : randomUint32 s = .ok (x, s')) :
    Drawn s min max (min + x % (max - min + 1)) s' := by
  have hwidth := toNat_span h hspan
  have hlt := Nat.mod_lt x.toNat (show 0 < (max - min + 1).toNat by omega)
  have hle := BitVec.le_def.1 h
  have hbound := max.isLt
  have hsum : (min + x % (max - min + 1)).toNat = min.toNat + (x % (max - min + 1)).toNat := by
    rw [BitVec.toNat_add, BitVec.toNat_umod, Nat.mod_eq_of_lt (by omega)]
  refine ⟨?_, ?_, ?_, fun _ => ⟨x, hcall, hsum⟩⟩
  · rw [randomRange_eq h hmax hcall, umod32, if_neg hspan]
    rfl
  · rw [BitVec.le_def, hsum]
    exact Nat.le_add_right _ _
  · rw [BitVec.le_def, hsum, BitVec.toNat_umod]
    omega

theorem Generator.drawn (g : Generator) {min max : BitVec 32} (h : min ≤ max)
    (hfull : ¬(min = 0 ∧ max = -1)) :
    ∃ r, ∃ g' : Generator, Drawn g.toMtState min max r g'.toMtState := by
  by_cases hmax : max = 0
  · subst hmax
    refine ⟨min, g, ?_, BitVec.le_refl min, h, fun h => absurd rfl h⟩
    rw [randomRange, if_neg (BitVec.not_lt.2 h), if_pos rfl]
  · obtain ⟨x, g', hcall⟩ := g.randomUint32
    exact ⟨_, g', drawn_of_span h hmax (mt (span_eq_zero_iff h).1 hfull) hcall⟩

theorem Generator.randomRange_full (g : Generator) :
    randomRange g.toMtState 0 (-1) = .error .diverges := by
  obtain ⟨x, g', hcall⟩ := g.randomUint32
  rw [randomRange_eq (by decide) (by decide) hcall, umod32, if_pos (by decide)]
  rfl

/-- The value is in range for every state and all bounds but those of the full range, where the
span of 2^32 values is 0. -/
theorem randomRange_drawn_iff (g : Generator) (min max : BitVec 32) (h : min ≤ max) :
    (∃ r, ∃ g' : Generator, Drawn g.toMtState min max r g'.toMtState) ↔
      ¬(min = 0 ∧ max = -1) := by
  constructor
  · rintro ⟨r, g', hr⟩ ⟨rfl, rfl⟩
    have hret := hr.returns
    rw [g.randomRange_full] at hret
    cases hret
  · exact g.drawn h

theorem randomRange_drawn_dice :
    ((1 : BitVec 32) ≤ 6 ∧ ¬((1 : BitVec 32) = 0 ∧ (6 : BitVec 32) = -1)) ∧
      ∃ r, ∃ g' : Generator, Drawn Generator.unset.toMtState 1 6 r g'.toMtState :=
  ⟨by decide, (randomRange_drawn_iff Generator.unset 1 6 (by decide)).2 (by decide)⟩

theorem randomRange_not_total :
    ¬∀ (g : Generator) (min max : BitVec 32), min ≤ max →
      ∃ r, ∃ g' : Generator, Drawn g.toMtState min max r g'.toMtState := by
  intro h
  obtain ⟨r, g', hr⟩ := h Generator.unset 0 (-1) (by decide)
  have hret := hr.returns
  rw [Generator.randomRange_full] at hret
  cases hret

theorem printRarity_lt (g : Generator) (rarity : Rarity) :
    ∃ r, ∃ g' : Generator, printRarity g.toMtState rarity = .ok (r, g'.toMtState, []) ∧
      r < rarity.numLogos := by
  have hlast : rarity.numLogos - 1 < rarity.numLogos ∧ rarity.numLogos - 1 ≠ -1 := by
    cases rarity <;> decide
  have hfirst : 0 ≤ rarity.numLogos - 1 := BitVec.le_def.2 (Nat.zero_le _)
  obtain ⟨r, g', hr⟩ := g.drawn hfirst fun hfull => hlast.2 hfull.2
  have hmax := BitVec.le_def.1 hr.le_max
  have hlt := BitVec.lt_def.1 hlast.1
  exact ⟨r, g', hr.returns, BitVec.lt_def.2 (Nat.lt_of_le_of_lt hmax hlt)⟩

end AdaOS
