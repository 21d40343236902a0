import AdaOS.Pit
import Mathlib.Tactic.Common

namespace AdaOS
set_option autoImplicit true

theorem elapsed_mono (passed : Nat → Nat) (h : m ≤ n) : elapsed passed m ≤ elapsed passed n := by
  induction h with
  | refl => exact Nat.le_refl _
  | step _ ih => exact Nat.le_trans ih (Nat.le_add_right _ _)

theorem Interrupts.turn_le (h : Interrupts passed) (hn : n % 2 = 1) :
    elapsed passed (n + 1) ≤ elapsed passed n + 1 ∧
      elapsed passed (n + 2) ≤ elapsed passed n + 3 := by
  obtain ⟨k, rfl⟩ : ∃ k, n = 2 * k + 1 := ⟨n / 2, by omega⟩
  have hturn := h.turn k
  have hhalt := h.halt k
  simp only [elapsed]
  omega

theorem toNat_ticksAt (h : start.toNat + elapsed passed n < 2 ^ 64) :
    (ticksAt start passed n).toNat = start.toNat + elapsed passed n := by
  rw [ticksAt, BitVec.toNat_add, BitVec.toNat_ofNat, Nat.add_mod_mod, Nat.mod_eq_of_lt h]

/-- The ticks of a sleep and the bounds within which the loop counts them. -/
structure Counts (start endTicks : BitVec 64) (q : Nat) : Prop where
  pos : 0 < start.toNat + q
  room : start.toNat + q + 1 < 2 ^ 64
  ends : endTicks.toNat = start.toNat + q - 1

theorem Counts.lt_iff (h : Counts start endTicks q) (hle : elapsed passed n ≤ q + 1) :
    ticksAt start passed n < endTicks ↔ elapsed passed n + 1 < q := by
  have hroom := h.room
  have hpos := h.pos
  rw [BitVec.lt_def, toNat_ticksAt (by omega), h.ends]
  omega

theorem Counts.step (h : Counts start endTicks q) (hi : Interrupts passed) (hn : n % 2 = 1)
    (hlt : elapsed passed n + 1 < q) (ms timerGoalFrequency : BitVec 32) (fuel : Nat) :
    pitSleepLoop ms timerGoalFrequency (ticksAt start passed) (fuel + 1) n start endTicks =
        pitSleepLoop ms timerGoalFrequency (ticksAt start passed) fuel (n + 2) start endTicks ∧
      elapsed passed (n + 2) ≤ q + 1 := by
  have hroom := h.room
  obtain ⟨hbody, hnext⟩ := hi.turn_le hn
  have hgo : ticksAt start passed n < endTicks := (h.lt_iff (by omega)).2 hlt
  have hback : ¬ticksAt start passed (n + 1) < start := by
    rw [BitVec.lt_def, toNat_ticksAt (by omega)]
    omega
  refine ⟨?_, by omega⟩
  rw [pitSleepLoop, if_pos hgo]
  exact if_neg hback

theorem Counts.within (h : Counts start endTicks q) (hi : Interrupts passed) (hn : n % 2 = 1)
    (hle : elapsed passed n ≤ q + 1)
    (hrun : pitSleepLoop ms timerGoalFrequency (ticksAt start passed) fuel n start endTicks =
      .ok m) :
    elapsed passed m ≤ q + 1 ∧ q ≤ elapsed passed m + 1 := by
  induction fuel generalizing n with
  | zero => cases hrun
  | succ fuel ih =>
    by_cases hlt : elapsed passed n + 1 < q
    · obtain ⟨hstep, hnext⟩ := h.step hi hn hlt ms timerGoalFrequency fuel
      rw [hstep] at hrun
      exact ih (by omega) hnext hrun
    · rw [pitSleepLoop, if_neg (mt (h.lt_iff hle).1 hlt)] at hrun
      cases hrun
      exact ⟨hle, Nat.le_of_not_lt hlt⟩

theorem Counts.exits (h : Counts start endTicks q) (hi : Interrupts passed) (hn : n % 2 = 1)
    (hle : elapsed passed n ≤ q + 1) (hlast : q ≤ elapsed passed bound)
    (hfuel : bound ≤ n + 2 * fuel) (ms timerGoalFrequency : BitVec 32) :
    ∃ m, pitSleepLoop ms timerGoalFrequency (ticksAt start passed) (fuel + 1) n start endTicks =
      .ok m := by
  induction fuel generalizing n with
  | zero =>
    have hmono : elapsed passed bound ≤ elapsed passed n := elapsed_mono passed hfuel
    rw [pitSleepLoop, if_neg (mt (h.lt_iff hle).1 (by omega))]
    exact ⟨n, rfl⟩
  | succ fuel ih =>
    by_cases hlt : elapsed passed n + 1 < q
    · obtain ⟨hstep, hnext⟩ := h.step hi hn hlt ms timerGoalFrequency (fuel + 1)
      rw [hstep]
      exact ih (by omega) hnext (by omega)
    · rw [pitSleepLoop, if_neg (mt (h.lt_iff hle).1 hlt)]
      exact ⟨n, rfl⟩

/-- The call, when the end of the sleep is not before the start of the counter. -/
theorem Counts.sleep (h : Counts start (start + sleepTicks ms timerGoalFrequency - 1) q)
    (hi : Interrupts passed) :
    (∃ fuel writes m, pitSleepMs ms timerGoalFrequency (ticksAt start passed) fuel =
      .ok (writes, m)) ∧
    ∀ fuel writes m, pitSleepMs ms timerGoalFrequency (ticksAt start passed) fuel =
      .ok (writes, m) → elapsed passed m ≤ q + 1 ∧ q ≤ elapsed passed m + 1 := by
  have hstart : ticksAt start passed 0 = start := BitVec.add_zero start
  have hfirst : elapsed passed 1 ≤ q + 1 := by
    have hone := hi.first
    simp only [elapsed]
    omega
  obtain ⟨bound, hbound⟩ := hi.coming q
  constructor
  · obtain ⟨m, hm⟩ := h.exits (n := 1) hi rfl hfirst hbound
      (show bound ≤ 1 + 2 * bound by omega) ms timerGoalFrequency
    refine ⟨bound + 1, setPitFrequency timerGoalFrequency, m, ?_⟩
    simp only [pitSleepMs, hstart, hm]
    rfl
  · intro fuel writes m hrun
    simp only [pitSleepMs, hstart] at hrun
    obtain ⟨n, hloop, hret⟩ := bind_ok hrun
    cases hret
    exact h.within hi rfl hfirst hloop

theorem pitSleepLoop_underflow {ms timerGoalFrequency : BitVec 32} {ticks : Nat → BitVec 64}
    (hrun : pitSleepLoop ms timerGoalFrequency ticks fuel n 0 (BitVec.allOnes 64) = .ok m) :
    ticks m = BitVec.allOnes 64 := by
  induction fuel generalizing n with
  | zero => cases hrun
  | succ fuel ih =>
    rw [pitSleepLoop] at hrun
    split_ifs at hrun with hlt
    · exact ih hrun
    · cases hrun
      exact BitVec.allOnes_le_iff.1 (BitVec.not_lt.1 hlt)

theorem pitSleepLoop_stopped {t startTicks endTicks : BitVec 64} (hlt : t < endTicks)
    (hstart : startTicks ≤ t) (ms timerGoalFrequency : BitVec 32) (fuel n : Nat) :
    pitSleepLoop ms timerGoalFrequency (fun _ => t) fuel n startTicks endTicks =
      .error .diverges := by
  induction fuel generalizing n with
  | zero => rfl
  | succ fuel ih =>
    have hback : ¬ t < startTicks := BitVec.not_lt.2 hstart
    rw [pitSleepLoop, if_pos hlt]
    dsimp only
    rw [if_neg hback, ih]

theorem toNat_sleepTicks (ms : BitVec 32) :
    (sleepTicks ms PIT_GOAL_FREQUENCY).toNat = ms.toNat * 1000 % 2 ^ 32 / 1000 := by
  have hlt : ms.toNat * 1000 % 2 ^ 32 / 1000 < 2 ^ 64 := by omega
  rw [sleepTicks, BitVec.toNat_setWidth, BitVec.toNat_udiv, BitVec.toNat_mul]
  exact Nat.mod_eq_of_lt hlt

theorem counts_sleepTicks (hroom : start.toNat + ms.toNat + 1 < 2 ^ 64)
    (hpos : 0 < start.toNat + ms.toNat * 1000 % 2 ^ 32 / 1000) :
    Counts start (start + sleepTicks ms PIT_GOAL_FREQUENCY - 1)
      (ms.toNat * 1000 % 2 ^ 32 / 1000) := by
  have hle : ms.toNat * 1000 % 2 ^ 32 / 1000 ≤ ms.toNat := by omega
  refine ⟨hpos, by omega, ?_⟩
  have hsum : (start + sleepTicks ms PIT_GOAL_FREQUENCY).toNat =
      start.toNat + ms.toNat * 1000 % 2 ^ 32 / 1000 := by
    rw [BitVec.toNat_add, toNat_sleepTicks, Nat.mod_eq_of_lt (by omega)]
  rw [BitVec.toNat_sub_of_le, hsum]
  · rfl
  · rw [BitVec.le_def, hsum]
    exact hpos

theorem pitSleepMs_stopped {t : BitVec 64} (hpos : 1 < ms.toNat * 1000 % 2 ^ 32 / 1000)
    (hroom : t.toNat + ms.toNat + 1 < 2 ^ 64) (fuel : Nat) :
    pitSleepMs ms PIT_GOAL_FREQUENCY (fun _ => t) fuel = .error .diverges := by
  have hends := (counts_sleepTicks hroom (by omega)).ends
  have hlt : t < t + sleepTicks ms PIT_GOAL_FREQUENCY - 1 := by
    rw [BitVec.lt_def, hends]
    omega
  rw [pitSleepMs, pitSleepLoop_stopped hlt (BitVec.le_refl t)]
  rfl

/-- The sleep ends within one tick of what is asked. -/
def SleepsFor (ms : BitVec 32) (start : BitVec 64) (passed : Nat → Nat) : Prop :=
  ∃ fuel writes m,
    pitSleepMs ms PIT_GOAL_FREQUENCY (ticksAt start passed) fuel = .ok (writes, m) ∧
      elapsed passed m ≤ ms.toNat + 1 ∧ ms.toNat ≤ elapsed passed m + 1

theorem not_sleepsFor_underflow (ms : BitVec 32) (passed : Nat → Nat)
    (hq : sleepTicks ms PIT_GOAL_FREQUENCY = 0) : ¬SleepsFor ms 0 passed := by
  intro ⟨fuel, writes, m, hrun, hle, _⟩
  have hms := ms.isLt
  have hstart : ticksAt 0 passed 0 = 0 := rfl
  have hend : (0 : BitVec 64) + 0 - 1 = BitVec.allOnes 64 := by decide
  simp only [pitSleepMs, hstart, hq, hend] at hrun
  obtain ⟨n, hloop, hret⟩ := bind_ok hrun
  cases hret
  have hlast := congrArg BitVec.toNat (pitSleepLoop_underflow hloop)
  have hzero : (0 : BitVec 64).toNat = 0 := rfl
  rw [toNat_ticksAt (by omega), BitVec.toNat_allOnes, hzero] at hlast
  omega

/-- A sleep lasts what is asked exactly when the product has 32 bits and the end is not before a
counter that is still at zero. -/
theorem pitSleepMs_lasts_iff (ms : BitVec 32) (start : BitVec 64) (passed : Nat → Nat)
    (hi : Interrupts passed) (hroom : start.toNat + ms.toNat + 1 < 2 ^ 64) :
    SleepsFor ms start passed ↔ ms.toNat * 1000 < 2 ^ 32 ∧ (start ≠ 0 ∨ ms ≠ 0) := by
  by_cases hpos : 0 < start.toNat + ms.toNat * 1000 % 2 ^ 32 / 1000
  · obtain ⟨hexit, hwithin⟩ := (counts_sleepTicks hroom hpos).sleep hi
    constructor
    · intro ⟨fuel, writes, m, hrun, hle, hge⟩
      have hbounds := hwithin fuel writes m hrun
      have hwrap : 2 ^ 32 ≤ ms.toNat * 1000 →
          ms.toNat * 1000 % 2 ^ 32 + 2 ^ 32 ≤ ms.toNat * 1000 := by omega
      refine ⟨by omega, ?_⟩
      by_contra hboth
      obtain ⟨rfl, rfl⟩ : start = 0 ∧ ms = 0 := by
        simpa only [not_or, not_not] using hboth
      exact absurd hpos (by decide)
    · intro ⟨hlt, _⟩
      obtain ⟨fuel, writes, m, hrun⟩ := hexit
      have hbounds := hwithin fuel writes m hrun
      rw [Nat.mod_eq_of_lt hlt, Nat.mul_div_cancel _ (by decide)] at hbounds
      exact ⟨fuel, writes, m, hrun, hbounds⟩
  · have hstart : start.toNat = 0 := by omega
    have hticks : ms.toNat * 1000 % 2 ^ 32 / 1000 = 0 := by omega
    obtain rfl : start = 0 := BitVec.eq_of_toNat_eq hstart
    have hq : sleepTicks ms PIT_GOAL_FREQUENCY = 0 :=
      BitVec.eq_of_toNat_eq ((toNat_sleepTicks ms).trans hticks)
    apply iff_of_false (not_sleepsFor_underflow ms passed hq)
    intro ⟨hlt, hboth⟩
    have hms : ms.toNat = 0 := by
      rwa [Nat.mod_eq_of_lt hlt, Nat.mul_div_cancel _ (by decide)] at hticks
    obtain h | h := hboth
    · exact h rfl
    · exact h (BitVec.eq_of_toNat_eq hms)

/-- One interrupt ends each `hlt`. -/
def oneTickATurn (n : Nat) : Nat := if n % 2 = 0 ∧ 0 < n then 1 else 0

theorem interrupts_oneTickATurn : Interrupts oneTickATurn := by
  have hle (n : Nat) : oneTickATurn n ≤ 1 := by
    unfold oneTickATurn
    split_ifs <;> decide
  refine ⟨hle 0, fun n => hle _, fun n => Nat.le_succ_of_le (hle _), fun k => ?_⟩
  refine ⟨2 * k + 1, ?_⟩
  induction k with
  | zero => exact Nat.zero_le _
  | succ k ih =>
    have hbody : oneTickATurn (2 * k + 1) = 0 := by
      rw [oneTickATurn, if_neg (by omega)]
    have hhalt : oneTickATurn (2 * k + 2) = 1 := by
      rw [oneTickATurn, if_pos (by omega)]
    have hturn : elapsed oneTickATurn (2 * (k + 1) + 1) =
        elapsed oneTickATurn (2 * k + 1) + oneTickATurn (2 * k + 1) + oneTickATurn (2 * k + 2) :=
      rfl
    omega

theorem pitSleepMs_lasts_iff_ten :
    SleepsFor 10 0 oneTickATurn ↔ (10 : BitVec 32).toNat * 1000 < 2 ^ 32 ∧
      ((0 : BitVec 64) ≠ 0 ∨ (10 : BitVec 32) ≠ 0) :=
  pitSleepMs_lasts_iff 10 0 oneTickATurn interrupts_oneTickATurn (by decide)

/-- The product for 4294968 milliseconds is 704, and the sleep ends at once. -/
theorem pitSleepMs_wraps :
    ¬∀ (ms : BitVec 32) (start : BitVec 64) (passed : Nat → Nat), Interrupts passed →
      start.toNat + ms.toNat + 1 < 2 ^ 64 → SleepsFor ms start passed := by
  intro hall
  obtain ⟨fuel, writes, m, hrun, -, hge⟩ :=
    hall 4294968 5 oneTickATurn interrupts_oneTickATurn (by decide)
  cases fuel with
  | zero => cases hrun
  | succ fuel =>
    have hend : (5 : BitVec 64) + sleepTicks 4294968 PIT_GOAL_FREQUENCY - 1 = 4 := by decide
    have hstart : ticksAt 5 oneTickATurn 0 = 5 := by decide
    have hfirst : ¬ticksAt 5 oneTickATurn 1 < 4 := by decide
    simp only [pitSleepMs, hstart, hend, pitSleepLoop, if_neg hfirst] at hrun
    cases hrun
    revert hge
    decide

end AdaOS
