import AdaOS.PitSleep

namespace AdaOS
set_option autoImplicit true

/-- The loop of `apic_sleep_ms`, where `ticks n` is what the `n`-th `get_apic_ticks` of the call
returns. It gives the number of the read at which the loop ends. -/
def apicSleepLoop (ms : BitVec 32) (ticks : Nat → BitVec 64) :
    Nat → Nat → BitVec 64 → BitVec 64 → Except Fault Nat
  | 0, _, _, _ => .error .diverges
  | fuel + 1, n, startMs, endMs =>
    if ticks n < endMs then
      let currentMs := ticks (n + 1)
      if currentMs < startMs then
        apicSleepLoop ms ticks fuel (n + 2) currentMs (currentMs + ms.setWidth 64)
      else apicSleepLoop ms ticks fuel (n + 2) startMs endMs
    else .ok n

def apicSleepMs (ms : BitVec 32) (ticks : Nat → BitVec 64) (fuel : Nat) : Except Fault Nat :=
  let startMs := ticks 0
  let endMs := startMs + ms.setWidth 64
  apicSleepLoop ms ticks fuel 1 startMs endMs

variable {ms : BitVec 32} {start : BitVec 64} {passed : Nat → Nat}

theorem counts_apicSleep (hroom : start.toNat + ms.toNat + 2 < 2 ^ 64) :
    Counts start (start + ms.setWidth 64) (ms.toNat + 1) := by
  have hms : (ms.setWidth 64).toNat = ms.toNat := BitVec.toNat_setWidth_of_le (by decide)
  refine ⟨by omega, by omega, ?_⟩
  rw [BitVec.toNat_add, hms, Nat.mod_eq_of_lt (by omega)]
  omega

theorem Counts.apicStep (h : Counts start endMs q) (hi : Interrupts passed) (hn : n % 2 = 1)
    (hlt : elapsed passed n + 1 < q) (ms : BitVec 32) (fuel : Nat) :
    apicSleepLoop ms (ticksAt start passed) (fuel + 1) n start endMs =
        apicSleepLoop ms (ticksAt start passed) fuel (n + 2) start endMs ∧
      elapsed passed (n + 2) ≤ q + 1 := by
  have hroom := h.room
  obtain ⟨hbody, hnext⟩ := hi.turn_le hn
  have hgo : ticksAt start passed n < endMs := (h.lt_iff (by omega)).2 hlt
  have hback : ¬ticksAt start passed (n + 1) < start := by
    rw [BitVec.lt_def, toNat_ticksAt (by omega)]
    omega
  refine ⟨?_, by omega⟩
  rw [apicSleepLoop, if_pos hgo]
  exact if_neg hback

theorem Counts.apicWithin (h : Counts start endMs q) (hi : Interrupts passed) (hn : n % 2 = 1)
    (hle : elapsed passed n ≤ q + 1)
    (hrun : apicSleepLoop ms (ticksAt start passed) fuel n start endMs = .ok m) :
    elapsed passed m ≤ q + 1 ∧ q ≤ elapsed passed m + 1 := by
  induction fuel generalizing n with
  | zero => cases hrun
  | succ fuel ih =>
    by_cases hlt : elapsed passed n + 1 < q
    · obtain ⟨hstep, hnext⟩ := h.apicStep hi hn hlt ms fuel
      rw [hstep] at hrun
      exact ih (by omega) hnext hrun
    · rw [apicSleepLoop, if_neg (mt (h.lt_iff hle).1 hlt)] at hrun
      cases hrun
      exact ⟨hle, Nat.le_of_not_lt hlt⟩

theorem Counts.apicExits (h : Counts start endMs q) (hi : Interrupts passed) (hn : n % 2 = 1)
    (hle : elapsed passed n ≤ q + 1) (hlast : q ≤ elapsed passed bound)
    (hfuel : bound ≤ n + 2 * fuel) (ms : BitVec 32) :
    ∃ m, apicSleepLoop ms (ticksAt start passed) (fuel + 1) n start endMs = .ok m := by
  induction fuel generalizing n with
  | zero =>
    have hmono : elapsed passed bound ≤ elapsed passed n := elapsed_mono passed hfuel
    rw [apicSleepLoop, if_neg (mt (h.lt_iff hle).1 (by omega))]
    exact ⟨n, rfl⟩
  | succ fuel ih =>
    by_cases hlt : elapsed passed n + 1 < q
    · obtain ⟨hstep, hnext⟩ := h.apicStep hi hn hlt ms (fuel + 1)
      rw [hstep]
      exact ih (by omega) hnext (by omega)
    · rw [apicSleepLoop, if_neg (mt (h.lt_iff hle).1 hlt)]
      exact ⟨n, rfl⟩

theorem apicSleepMs_ends (ms : BitVec 32) (start : BitVec 64) (hi : Interrupts passed)
    (hroom : start.toNat + ms.toNat + 2 < 2 ^ 64) :
    ∃ fuel m, apicSleepMs ms (ticksAt start passed) fuel = .ok m ∧
      ms.toNat ≤ elapsed passed m ∧ elapsed passed m ≤ ms.toNat + 2 := by
  have hcounts := counts_apicSleep hroom
  have hstart : ticksAt start passed 0 = start := BitVec.add_zero start
  have hfirst : elapsed passed 1 ≤ ms.toNat + 1 + 1 := by
    have hone := hi.first
    simp only [elapsed]
    omega
  obtain ⟨bound, hbound⟩ := hi.coming (ms.toNat + 1)
  obtain ⟨m, hm⟩ := hcounts.apicExits (n := 1) hi rfl hfirst hbound
    (show bound ≤ 1 + 2 * bound by omega) ms
  have hwithin := hcounts.apicWithin hi rfl hfirst hm
  refine ⟨bound + 1, m, ?_, by omega, by omega⟩
  rw [apicSleepMs, hstart]
  exact hm

theorem apicSleepLoop_mono {ticks : Nat → BitVec 64}
    (h : apicSleepLoop ms ticks fuel n startMs endMs = .ok m) (hle : fuel ≤ fuel') :
    apicSleepLoop ms ticks fuel' n startMs endMs = .ok m := by
  induction fuel generalizing n startMs endMs fuel' with
  | zero => cases h
  | succ fuel ih =>
    obtain ⟨fuel', rfl⟩ := Nat.exists_eq_succ_of_ne_zero (Nat.ne_zero_of_lt hle)
    have hrest := Nat.le_of_succ_le_succ hle
    rw [apicSleepLoop] at h ⊢
    dsimp only at h ⊢
    split_ifs at h ⊢
    · exact ih h hrest
    · exact ih h hrest
    · exact h

theorem apicSleepLoop_stopped (hlt : t < endMs) (ms : BitVec 32) (fuel n : Nat)
    (hstart : startMs ≤ t) :
    apicSleepLoop ms (fun _ => t) fuel n startMs endMs = .error .diverges := by
  induction fuel generalizing n with
  | zero => rfl
  | succ fuel ih =>
    have hback : ¬ t < startMs := BitVec.not_lt.2 hstart
    rw [apicSleepLoop, if_pos hlt]
    dsimp only
    rw [if_neg hback, ih]

theorem apicSleepMs_stopped (hpos : 0 < ms.toNat) (hroom : t.toNat + ms.toNat < 2 ^ 64)
    (fuel : Nat) : apicSleepMs ms (fun _ => t) fuel = .error .diverges := by
  have hms : (ms.setWidth 64).toNat = ms.toNat := BitVec.toNat_setWidth_of_le (by decide)
  apply apicSleepLoop_stopped
  · rw [BitVec.lt_def, BitVec.toNat_add, hms, Nat.mod_eq_of_lt hroom]
    omega
  · exact BitVec.le_refl t

/-- `apic_sleep_ms` lasts for as many ticks as are asked and two more at most where interrupts are
handled, and for ever where they are not. -/
theorem apicSleepMs_lasts (ms : BitVec 32) (start : BitVec 64) (hpos : 0 < ms.toNat)
    (hroom : start.toNat + ms.toNat + 2 < 2 ^ 64) :
    (∀ passed, Interrupts passed → ∃ fuel m, apicSleepMs ms (ticksAt start passed) fuel = .ok m ∧
      ms.toNat ≤ elapsed passed m ∧ elapsed passed m ≤ ms.toNat + 2) ∧
    ∀ fuel, apicSleepMs ms (fun _ => start) fuel = .error .diverges :=
  ⟨fun _ hi => apicSleepMs_ends ms start hi hroom,
    fun fuel => apicSleepMs_stopped hpos (by omega) fuel⟩

theorem apicSleepMs_lasts_ten :
    (∃ fuel m, apicSleepMs 10 (ticksAt 5 oneTickATurn) fuel = .ok m ∧
      10 ≤ elapsed oneTickATurn m ∧ elapsed oneTickATurn m ≤ 12) ∧
    ∀ fuel, apicSleepMs 10 (fun _ => 5) fuel = .error .diverges := by
  obtain ⟨hends, hstopped⟩ := apicSleepMs_lasts 10 5 (by decide) (by decide)
  exact ⟨hends oneTickATurn interrupts_oneTickATurn, hstopped⟩

end AdaOS
