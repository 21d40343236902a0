import AdaOS.HandlerSteps

namespace AdaOS.Printf.Machine
set_option autoImplicit true

open Traced

variable {σ : Type} {env : Surroundings σ} {m m' m₁ : Machine σ} {d : Delivery}
  {ds : List Delivery} {fb : Framebuffer} {pre : List (BitVec 8)}

theorem linesFit_concat (h : LinesFit pre) (hl : (edited pre).length < 255) (b : BitVec 8) :
    LinesFit (pre ++ [b]) := by
  intro p b' hp
  obtain heq | hp := List.prefix_concat_iff.1 hp
  · obtain ⟨rfl, _⟩ := List.append_inj' heq rfl
    exact hl
  · exact h p b' hp

theorem asksNoTime_concat (h : Terminal.AsksNoTime pre)
    (hne : b = carriageReturn → commandNamed (edited pre) ≠ some .time) :
    Terminal.AsksNoTime (pre ++ [b]) := by
  intro p hp
  obtain heq | hp := List.prefix_concat_iff.1 hp
  · obtain ⟨rfl, hlast⟩ := List.append_inj' heq rfl
    exact hne (List.singleton_inj.1 hlast).symm
  · exact h p hp

/-- What the shell can take: its lines fit the buffer, and none of them asks for the time. -/
def Served (bytes : List (BitVec 8)) : Prop := LinesFit bytes ∧ Terminal.AsksNoTime bytes

theorem served_nil : Served [] := by
  refine ⟨fun p b hp => ?_, fun p hp => ?_⟩
  · exact absurd (List.prefix_nil.1 hp) (List.append_ne_nil_of_right_ne_nil p nofun)
  · exact absurd (List.prefix_nil.1 hp) (List.append_ne_nil_of_right_ne_nil p nofun)

theorem Served.concat (h : Served pre) (hd : Harmless pre d) : Served (pre ++ serialBytes [d]) := by
  rw [serialBytes_single]
  by_cases hserial : d.response = .serial
  · obtain ⟨hl, hne⟩ := hd hserial
    rw [if_pos hserial]
    exact ⟨linesFit_concat h.1 hl d.byte, asksNoTime_concat h.2 hne⟩
  · rw [if_neg hserial, List.append_nil]
    exact h

theorem Served.harmless {rest : List (BitVec 8)} (h : Served (pre ++ (serialBytes [d] ++ rest))) :
    Harmless pre d := by
  intro hserial
  rw [serialBytes_single, if_pos hserial, ← List.append_assoc] at h
  refine ⟨h.1 pre d.byte (List.prefix_append _ _), fun hreturn => h.2 pre ?_⟩
  rw [← hreturn]
  exact List.prefix_append _ _

theorem serialBytes_cons (d : Delivery) (ds : List Delivery) :
    serialBytes (d :: ds) = serialBytes [d] ++ serialBytes ds := by
  rw [serialBytes, serialBytes, serialBytes, ← List.map_append, ← List.filter_append,
    List.singleton_append]

/-- The timers as `setup_pit` leaves them, with room for `n` ticks and a sleep. -/
structure Timed (m : Machine σ) (n : Nat) : Prop where
  goal : m.state.pitInitialized ≠ 0 → m.timerGoalFrequency = PIT_GOAL_FREQUENCY
  apic : m.apicTicks.toNat + n + PANIC_SOUND_INTERVAL.toNat < 2 ^ 64
  pit : m.pitTicks.toNat + n + PANIC_SOUND_INTERVAL.toNat + 1 < 2 ^ 64

theorem Timed.stopped (h : m.Timed n) : m.alarm.Stopped m.apicTicks m.pitTicks := by
  have hapic := h.apic
  have hpit := h.pit
  exact ⟨h.goal, rfl, rfl, by omega, by omega⟩

theorem toNat_add_countP_le (ticks : BitVec 64) (d : Delivery) (r : Response) :
    (ticks + .ofNat 64 ([d].countP fun d => d.response = r)).toNat ≤ ticks.toNat + 1 := by
  rw [countP_single, BitVec.toNat_add]
  split <;> simp only [BitVec.toNat_ofNat] <;> omega

theorem Timed.handled (h : m.Timed (n + 1)) (hhandles : Handles fb m m' pre [d]) : m'.Timed n := by
  have hapic := h.apic
  have hpit := h.pit
  have hapicTicks := toNat_add_countP_le m.apicTicks d .apicTimer
  have hpitTicks := toNat_add_countP_le m.pitTicks d .pit
  rw [← hhandles.apic] at hapicTicks
  rw [← hhandles.pit] at hpitTicks
  refine ⟨fun hinit => ?_, by omega, by omega⟩
  rw [hhandles.state] at hinit
  rw [hhandles.goal]
  exact h.goal hinit

theorem Handles.mute_iff (h : Handles fb m m' pre [d]) (hgoes : d.response.halts = false) :
    m'.Mute ↔ m.Mute := by
  have hquiet : d.response.aborts = false := by
    revert hgoes
    cases d.response <;> intro hgoes
    case abort => cases hgoes
    all_goals rfl
  have hpanics := h.panics
  rw [any_single, hquiet] at hpanics
  rw [Mute, Mute, h.state, hpanics]
  exact Iff.rfl

/-- An abort comes only where a `panic` does not beep. -/
def AbortsMute (m : Machine σ) (ds : List Delivery) : Prop :=
  ∀ d ∈ ds, d.response.aborts = true → m.Mute

/-- The run lemma: interrupts that the shell can take and that do not beep are handled to the
end. -/
theorem run_returns (env : Surroundings σ) (ds : List Delivery)
    (hafter : m.terminal.shell.After pre) (hon : m.terminal.console.On fb) (hf : fb.Fits)
    (hs : 128 ≤ fb.stride) (hready : Ready env.lineStatus)
    (hserved : Served (pre ++ serialBytes (taken ds))) (hmute : m.AbortsMute (taken ds)) :
    ∃ wait e, ∀ wait' ≥ wait, ∀ fuel, m.run env wait' fuel ds = .ok e := by
  induction ds generalizing m pre with
  | nil => exact ⟨0, .returned m, fun _ _ _ => rfl⟩
  | cons d ds ih =>
    rw [taken, serialBytes_cons] at hserved
    rw [taken] at hmute
    obtain ⟨m₁, echo, text, hstep⟩ := step env hafter hon hf hs hserved.harmless
      (hmute d List.mem_cons_self)
    obtain ⟨wait, e, hreturns⟩ := hstep.returns hready
    obtain ⟨hhandles, hhalted⟩ := hstep.of_ok (hreturns wait (Nat.le_refl _) 0)
    cases e with
    | halted m' =>
      refine ⟨wait, .halted m', fun wait' hle fuel => ?_⟩
      rw [run, hreturns wait' hle fuel]
      rfl
    | returned m' =>
      have hgoes : d.response.halts = false := hhalted.symm
      rw [hgoes, if_neg Bool.false_ne_true] at hserved hmute
      rw [← List.append_assoc] at hserved
      have hmute' : m'.AbortsMute (taken ds) := fun d' hd' habort =>
        (hhandles.mute_iff hgoes).2 (hmute d' (List.mem_cons_of_mem d hd') habort)
      obtain ⟨wait', e, hrest⟩ := ih hhandles.after hhandles.on hserved hmute'
      refine ⟨max wait wait', e, fun w hle fuel => ?_⟩
      rw [run, hreturns w (le_of_max_le_left hle) fuel]
      exact hrest w (le_of_max_le_right hle) fuel

theorem harmless_of_ok {e : Ending (Machine σ)} (hafter : m.terminal.shell.After pre)
    (hon : m.terminal.console.On fb) (hf : fb.Fits) (hs : 128 ≤ fb.stride)
    (htimed : m.Timed n) (hok : m.exceptionHandler env wait fuel d = .ok e) : Harmless pre d := by
  intro hserial
  have hresponse : Printf.response d.context.vectorNumber = .serial := hserial
  rw [exceptionHandler, hresponse] at hok
  obtain ⟨t, ht, _⟩ := bind_ok hok
  have hlt : (edited pre).length < 255 := by
    by_contra hfull
    have hle := hafter.holds.length_le
    have hover := Terminal.overrun (m.surroundings env) hafter
      (Nat.le_antisymm hle (Nat.not_lt.1 hfull)) d.context d.byte wait fuel
    cases hover.symm.trans ht
  refine ⟨hlt, fun hreturn htime => ?_⟩
  have hapic := htimed.apic
  have hshorter : CMOS_UPDATE_TIME.toNat ≤ PANIC_SOUND_INTERVAL.toNat := by decide
  have hroom : m.apicTicks.toNat + CMOS_UPDATE_TIME.toNat < 2 ^ 64 := by omega
  have hstill : Terminal.Still (m.surroundings env) m.apicTicks := ⟨rfl, hroom⟩
  rw [hreturn] at ht
  exact Terminal.return_hangs hafter hlt htime hstill hon hf hs d.context wait fuel ht

theorem mute_of_ok {e : Ending (Machine σ)} (htimed : m.Timed n)
    (hok : m.exceptionHandler env wait fuel d = .ok e) (habort : d.response.aborts = true) :
    m.Mute := by
  cases hd : d.response with
  | abort msg =>
    have hresponse : Printf.response d.context.vectorNumber = .abort msg := hd
    rw [exceptionHandler, hresponse] at hok
    obtain ⟨r, habort, _⟩ := bind_ok hok
    obtain ⟨c, _, hpanic⟩ := bind_ok habort
    by_contra hbeeps
    obtain ⟨hinit, hpanics⟩ := not_or.1 hbeeps
    have hzero : m.panics = 0 := BitVec.le_zero_iff.1 (BitVec.not_lt.1 hpanics)
    rw [hzero] at hpanic
    exact htimed.stopped.panic_hangs hinit env.font fuel c msg hpanic
  | _ =>
    rw [hd] at habort
    cases habort

/-- What a run that has come to its end has done. -/
theorem of_run {e : Ending (Machine σ)} (hafter : m.terminal.shell.After pre)
    (hon : m.terminal.console.On fb) (hf : fb.Fits) (hs : 128 ≤ fb.stride)
    (htimed : m.Timed ds.length) (hpre : Served pre) (hrun : m.run env wait fuel ds = .ok e) :
    (Served (pre ++ serialBytes (taken ds)) ∧ m.AbortsMute (taken ds)) ∧
      Handles fb m e.machine pre (taken ds) ∧ e.hasHalted = ds.any fun d => d.response.halts := by
  induction ds generalizing m pre with
  | nil =>
    cases hrun
    refine ⟨⟨?_, fun d hd => absurd hd List.not_mem_nil⟩, .nil hafter hon, rfl⟩
    rwa [taken, serialBytes, List.filter_nil, List.map_nil, List.append_nil]
  | cons d ds ih =>
    rw [run] at hrun
    obtain ⟨e₁, hfirst, hrest⟩ := bind_ok hrun
    have hharmless := harmless_of_ok hafter hon hf hs htimed hfirst
    have hmute := mute_of_ok htimed hfirst
    obtain ⟨m₁, echo, text, hstep⟩ := step env hafter hon hf hs hharmless hmute
    obtain ⟨hhandles, hhalted⟩ := hstep.of_ok hfirst
    have hserved := hpre.concat hharmless
    cases e₁ with
    | halted m' =>
      have hhalts : d.response.halts = true := hhalted.symm
      cases hrest
      rw [taken, hhalts, if_pos rfl, List.any_cons, hhalts]
      refine ⟨⟨hserved, fun d' hd' => ?_⟩, hhandles, rfl⟩
      rw [List.mem_singleton.1 hd']
      exact hmute
    | returned m' =>
      have hgoes : d.response.halts = false := hhalted.symm
      change Handles fb m m' pre [d] at hhandles
      obtain ⟨⟨hall, hquiet⟩, hhandles', hany⟩ := ih hhandles.after hhandles.on
        (htimed.handled hhandles) hserved hrest
      rw [taken, hgoes, if_neg Bool.false_ne_true, List.any_cons, hgoes, Bool.false_or,
        serialBytes_cons, ← List.append_assoc]
      refine ⟨⟨hall, fun d' hd' habort => ?_⟩, hhandles.cons hhandles', hany⟩
      obtain rfl | hd' := List.mem_cons.1 hd'
      · exact hmute habort
      · exact (hhandles.mute_iff hgoes).1 (hquiet d' hd' habort)

/-- The kernel handles every sequence of interrupts, whatever faults are among them, up to the
first that halts it, unless the bytes on the serial port overrun a line or ask for the time, or an
abort lets `panic` beep. -/
theorem run_ends_iff (hboot : m.terminal.shell = Shell.boot) (hready : Ready env.lineStatus)
    (hon : m.terminal.console.On fb) (hf : fb.Fits) (hs : 128 ≤ fb.stride) (ds : List Delivery)
    (htimed : m.Timed ds.length) :
    (∃ wait fuel e, m.run env wait fuel ds = .ok e) ↔
      Served (serialBytes (taken ds)) ∧ m.AbortsMute (taken ds) := by
  have hafter : m.terminal.shell.After [] := hboot ▸ Shell.boot_after
  constructor
  · rintro ⟨wait, fuel, e, hrun⟩
    exact (of_run hafter hon hf hs htimed served_nil hrun).1
  · intro ⟨hserved, hmute⟩
    obtain ⟨wait, e, hrun⟩ := run_returns env ds hafter hon hf hs hready hserved hmute
    exact ⟨wait, 0, e, hrun wait (Nat.le_refl _) 0⟩

/-- Whatever interrupts come, every tick of either timer is counted, each interrupt is acknowledged
once and where it came from, the shell has taken the bytes of the serial port in order, and the
screen is not left; the kernel has halted just when one of them was to halt it. -/
theorem run_handles {e : Ending (Machine σ)} (hboot : m.terminal.shell = Shell.boot)
    (hon : m.terminal.console.On fb) (hf : fb.Fits) (hs : 128 ≤ fb.stride)
    (htimed : m.Timed ds.length) (hrun : m.run env wait fuel ds = .ok e) :
    Handles fb m e.machine [] (taken ds) ∧ e.hasHalted = ds.any fun d => d.response.halts :=
  (of_run (hboot ▸ Shell.boot_after) hon hf hs htimed served_nil hrun).2

def sampleDelivery (vector : BitVec 64) : Delivery :=
  ⟨{ readStatus (fun _ => 7) 0 with vectorNumber := vector }, carriageReturn⟩

/-- A tick, a carriage return, a tick of the other timer and an invalid opcode. -/
def sampleDeliveries : List Delivery := [0x20, 0x24, 0xf1, 0x06, 0x20].map sampleDelivery

/-- The machine once the timers are set up. -/
def sampleMachine : Machine (PoolState []) where
  terminal := Terminal.sampleTerminal
  state := ⟨1, 0xf0⟩
  timerGoalFrequency := PIT_GOAL_FREQUENCY
  pitTicks := 0
  apicTicks := 0
  port61 := fun _ => 0x30
  panics := 0
  acks := []

theorem timed_sampleMachine (h : n < 2 ^ 32) : sampleMachine.Timed n := by
  have hinterval : PANIC_SOUND_INTERVAL.toNat = 200 := rfl
  have hapic : sampleMachine.apicTicks.toNat = 0 := rfl
  have hpit : sampleMachine.pitTicks.toNat = 0 := rfl
  exact ⟨fun _ => rfl, by omega, by omega⟩

theorem served_sampleDeliveries : Served (serialBytes (taken sampleDeliveries)) := by
  have hbytes : serialBytes (taken sampleDeliveries) = [] ++ [carriageReturn] := by decide
  have hnothing : commandNamed (edited []) ≠ some .time := by decide
  rw [hbytes]
  exact ⟨linesFit_concat served_nil.1 (by decide) _,
    asksNoTime_concat served_nil.2 fun _ => hnothing⟩

theorem abortsMute_sampleDeliveries : sampleMachine.AbortsMute (taken sampleDeliveries) := by
  have hnone : ∀ d ∈ taken sampleDeliveries, d.response.aborts = false := by decide
  intro d hd habort
  cases (hnone d hd).symm.trans habort

/-- An invalid opcode halts the machine, and a double fault keeps it in the beeps. -/
theorem run_ends_iff_sample :
    (∃ wait fuel e, sampleMachine.run Terminal.sampleSurroundings wait fuel sampleDeliveries =
      .ok e) ∧
    ¬∃ wait fuel e, sampleMachine.run Terminal.sampleSurroundings wait fuel
      [sampleDelivery 0x20, sampleDelivery 0x08] = .ok e := by
  have hon := Console.boot_on oneRow_fits
  constructor
  · exact (run_ends_iff rfl ready_always hon oneRow_fits (by decide) sampleDeliveries
      (timed_sampleMachine (by decide))).2 ⟨served_sampleDeliveries, abortsMute_sampleDeliveries⟩
  · intro hends
    have hmute := ((run_ends_iff rfl ready_always hon oneRow_fits (by decide)
      [sampleDelivery 0x20, sampleDelivery 0x08] (timed_sampleMachine (by decide))).1 hends).2
    obtain hinit | hpanics := hmute (sampleDelivery 0x08) (.tail _ (.head _)) rfl
    · exact absurd hinit (by decide)
    · exact absurd hpanics (by decide)

theorem run_handles_sample : ∃ wait fuel e,
    sampleMachine.run Terminal.sampleSurroundings wait fuel sampleDeliveries = .ok e ∧
      Handles oneRow sampleMachine e.machine [] (taken sampleDeliveries) ∧
      e.hasHalted = sampleDeliveries.any fun d => d.response.halts := by
  obtain ⟨wait, e, hrun⟩ := run_returns Terminal.sampleSurroundings sampleDeliveries
    (m := sampleMachine) Shell.boot_after (Console.boot_on oneRow_fits) oneRow_fits (by decide)
    ready_always served_sampleDeliveries abortsMute_sampleDeliveries
  have hreturns := hrun wait (Nat.le_refl _) 0
  exact ⟨wait, 0, e, hreturns, run_handles rfl (Console.boot_on oneRow_fits) oneRow_fits
    (by decide) (timed_sampleMachine (by decide)) hreturns⟩

end AdaOS.Printf.Machine
