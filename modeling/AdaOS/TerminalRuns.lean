import AdaOS.TerminalSession

namespace AdaOS.Printf.Terminal
set_option autoImplicit true

open Traced

variable {σ : Type} {env : Surroundings σ} {t t' t₁ : Terminal σ} {fb : Framebuffer}
  {bytes echo text : List (BitVec 8)} {call : InterruptCpuStatus × BitVec 8}
  {calls : List (InterruptCpuStatus × BitVec 8)}

def typed (calls : List (InterruptCpuStatus × BitVec 8)) : List (BitVec 8) := calls.map Prod.snd

theorem typed_concat (calls : List (InterruptCpuStatus × BitVec 8))
    (call : InterruptCpuStatus × BitVec 8) : typed (calls ++ [call]) = typed calls ++ [call.2] := by
  rw [typed, List.map_append]
  rfl

theorem run_concat (t : Terminal σ) (env : Surroundings σ) (wait fuel : Nat)
    (calls : List (InterruptCpuStatus × BitVec 8)) (call : InterruptCpuStatus × BitVec 8) :
    t.run env wait fuel (calls ++ [call]) =
      t.run env wait fuel calls >>= fun t => t.rs232Irq env wait fuel call.1 call.2 := by
  rw [run, List.foldlM_append]
  apply bind_congr
  intro t'
  rw [List.foldlM_cons]
  exact bind_pure _

theorem transcript_concat (env : Surroundings σ) (heap : Heap σ) (pre : List (BitVec 8))
    (calls : List (InterruptCpuStatus × BitVec 8)) (call : InterruptCpuStatus × BitVec 8) :
    transcript env heap pre (calls ++ [call]) =
      transcript env heap pre calls ++ spoken env heap (pre ++ typed calls) call := by
  induction calls generalizing pre with
  | nil =>
    rw [typed, List.map_nil, List.append_nil]
    exact List.append_nil _
  | cons call' calls ih =>
    rw [List.cons_append, transcript, transcript, ih, List.append_assoc, List.append_assoc]
    rfl

/-- No line that is entered names the command `time`. -/
def AsksNoTime (bytes : List (BitVec 8)) : Prop :=
  ∀ p, p ++ [carriageReturn] <+: bytes → commandNamed (edited p) ≠ some .time

theorem AsksNoTime.of_concat (h : AsksNoTime (bytes ++ [b])) : AsksNoTime bytes :=
  fun p hp => h p (hp.trans (List.prefix_append _ _))

theorem serialWritebBlocking_written {lineStatus : Nat → BitVec 8} {port port' : Com1}
    (h : port.serialWritebBlocking lineStatus byte wait = .ok port') :
    port'.written = port.written ++ ioBytes byte := by
  induction wait generalizing port with
  | zero => cases h
  | succ wait ih =>
    rw [Com1.serialWritebBlocking] at h
    split_ifs at h
    · cases h
      rfl
    · have hrest := ih h
      exact hrest

theorem send_written {lineStatus : Nat → BitVec 8} {u : List (BitVec 8)} {port port' : Com1}
    (h : send lineStatus wait port u = .ok port') :
    port'.written = port.written ++ u.flatMap ioBytes := by
  rw [send] at h
  induction u generalizing port with
  | nil =>
    cases h
    exact (List.append_nil _).symm
  | cons b u ih =>
    rw [List.foldlM_cons] at h
    obtain ⟨port₁, hbyte, hrest⟩ := bind_ok h
    rw [ih hrest, serialWritebBlocking_written hbyte, List.flatMap_cons, List.append_assoc]

theorem Step.of_ok (h : Step env fb bytes call t t₁ echo text)
    (hok : t.rs232Irq env wait fuel call.1 call.2 = .ok t') :
    t'.shell.After (bytes ++ [call.2]) ∧ t'.console.On fb ∧ t'.heap = t.heap ∧
      t'.port.written = t.port.written ++ Terminal.spoken env t.heap bytes call := by
  rw [h.eq] at hok
  cases hsend : send env.lineStatus wait { t.port with written := t.port.written ++ echo } text with
  | error e =>
    rw [hsend] at hok
    cases hok
  | ok port =>
    rw [hsend] at hok
    cases hok
    refine ⟨h.after, h.on, h.heap, ?_⟩
    rw [h.spoken, ← List.append_assoc]
    exact send_written hsend

theorem Step.returns (h : Step env fb bytes call t t₁ echo text) (hready : Ready env.lineStatus) :
    ∃ wait t', ∀ wait' ≥ wait, ∀ fuel, t.rs232Irq env wait' fuel call.1 call.2 = .ok t' := by
  obtain ⟨wait, port, hsend, _⟩ := send_ready hready text
    { t.port with written := t.port.written ++ echo }
  refine ⟨wait, { t₁ with port := port }, fun wait' hle fuel => ?_⟩
  rw [h.eq, send_mono hsend hle]
  rfl

/-- The run lemma: the lines that do not ask for the time are answered one after the other. -/
theorem run_returns (env : Surroundings σ) (ht : t.shell.After []) (hfit : LinesFit (typed calls))
    (hno : AsksNoTime (typed calls)) (hready : Ready env.lineStatus) (hon : t.console.On fb)
    (hf : fb.Fits) :
    ∃ wait t', (∀ wait' ≥ wait, ∀ fuel, t.run env wait' fuel calls = .ok t') ∧
      t'.shell.After (typed calls) ∧ t'.console.On fb := by
  induction calls using List.reverseRecOn with
  | nil => exact ⟨0, t, fun _ _ _ => rfl, ht, hon⟩
  | append_singleton calls call ih =>
    rw [typed_concat] at hfit hno ⊢
    obtain ⟨wait, s, hrun, hafter, hs⟩ := ih hfit.of_concat hno.of_concat
    have hne : call.2 = carriageReturn → commandNamed (edited (typed calls)) ≠ some .time := by
      intro hcall
      apply hno
      rw [hcall]
    obtain ⟨t₁, echo, text, hstep⟩ := step env call.1 hafter
      (hfit _ _ (List.prefix_refl _)) hne hs hf
    obtain ⟨wait', t', hreturns⟩ := hstep.returns hready
    obtain ⟨hafter', hon', _⟩ := hstep.of_ok (hreturns wait' (Nat.le_refl _) 0)
    refine ⟨max wait wait', t', fun w hle fuel => ?_, hafter', hon'⟩
    rw [run_concat, hrun w (le_of_max_le_left hle) fuel, bind_of_ok rfl]
    exact hreturns w (le_of_max_le_right hle) fuel

theorem overrun (env : Surroundings σ) (h : t.shell.After bytes) (hl : (edited bytes).length = 255)
    (context : InterruptCpuStatus) (b : BitVec 8) (wait fuel : Nat) :
    t.rs232Irq env wait fuel context b = .error .outOfBounds := by
  have hr : carriageReturn ∈ bytes := by
    by_contra hn
    rw [edited_of_idle hn] at hl
    cases hl
  have hgo : ¬ (b ≠ carriageReturn ∧ ¬ t.shell.terminalRunning) := by
    rw [h.running]
    exact fun hn => hn.2 (decide_eq_true hr)
  have hindex := h.holds.index
  have hzero : t.shell.bufferIndex ≠ 0 := by
    intro hz
    rw [hz, hl] at hindex
    cases hindex
  rw [rs232Irq, if_neg hgo]
  by_cases hb : b = backspace
  · rw [if_pos hb, if_neg hzero, hindex, Shell.store_of_le _ _ (Nat.le_of_eq hl.symm)]
    rfl
  · rw [if_neg hb, hindex, Shell.store_of_le _ _ (Nat.le_of_eq hl.symm)]
    rfl

/-- While the handler runs no tick is counted. -/
structure Still (env : Surroundings σ) (tick : BitVec 64) : Prop where
  ticks : env.ticks = fun _ _ => tick
  room : tick.toNat + CMOS_UPDATE_TIME.toNat < 2 ^ 64

theorem perform_time (hstill : Still env tick) (hon : t.console.On fb) (hf : fb.Fits)
    (hs : 128 ≤ fb.stride) (context : InterruptCpuStatus) (wait fuel : Nat) :
    t.perform env wait fuel context .time ≠ .ok t' := by
  rw [perform, hstill.ticks]
  cases hk : kmalloc env.frames t.heap 25 with
  | error e =>
    rw [getFormattedTime, hk]
    intro h
    cases h
  | ok r =>
    rw [getFormattedTime_hangs hk hstill.room hon hf hs]
    intro h
    cases h

theorem return_hangs (h : t.shell.After bytes) (hl : (edited bytes).length < 255)
    (htime : commandNamed (edited bytes) = some .time) (hstill : Still env tick)
    (hon : t.console.On fb) (hf : fb.Fits) (hs : 128 ≤ fb.stride) (context : InterruptCpuStatus)
    (wait fuel : Nat) : t.rs232Irq env wait fuel context carriageReturn ≠ .ok t' := by
  have hother : carriageReturn ≠ backspace := by decide
  have hexact : Shell.Exact { t.shell with
      lineBuffer := t.shell.lineBuffer.set (edited bytes).length carriageReturn hl
      bufferIndex := t.shell.bufferIndex + 1 } (edited bytes ++ [carriageReturn]) :=
    h.holds.exact_of_store hl carriageReturn rfl rfl
  have hline := hexact.contents
  rw [List.append_assoc, List.singleton_append] at hline
  have hfind := findCommand_eq hline
  rw [rs232Irq, if_neg (fun h => h.1 rfl), if_neg hother, h.holds.index,
    Shell.store_of_lt _ _ hl, bind_of_ok rfl, if_pos rfl, enter, answer, hfind, htime]
  intro hok
  obtain ⟨t₁, hperform, _⟩ := bind_ok hok
  refine perform_time hstill ?_ hf hs context wait fuel hperform
  exact hon

/-- What a run that has come to its end has taken. -/
theorem of_run (ht : t.shell.After []) (hstill : Still env tick) (hon : t.console.On fb)
    (hf : fb.Fits) (hs : 128 ≤ fb.stride) (hrun : t.run env wait fuel calls = .ok t') :
    (LinesFit (typed calls) ∧ AsksNoTime (typed calls)) ∧ t'.shell.After (typed calls) ∧
      t'.console.On fb ∧ t'.heap = t.heap ∧
      t'.port.written = t.port.written ++ transcript env t.heap [] calls := by
  induction calls using List.reverseRecOn generalizing t' with
  | nil =>
    cases hrun
    refine ⟨⟨fun p b hp => ?_, fun p hp => ?_⟩, ht, hon, rfl, (List.append_nil _).symm⟩
    · exact absurd (List.prefix_nil.1 hp) (List.append_ne_nil_of_right_ne_nil p nofun)
    · exact absurd (List.prefix_nil.1 hp) (List.append_ne_nil_of_right_ne_nil p nofun)
  | append_singleton calls call ih =>
    rw [run_concat] at hrun
    obtain ⟨s, hcalls, hcall⟩ := bind_ok hrun
    obtain ⟨⟨hfit, hno⟩, hafter, hs', hheap, hwritten⟩ := ih hcalls
    have hle := hafter.holds.length_le
    have hlt : (edited (typed calls)).length < 255 := by
      by_contra hfull
      rw [overrun env hafter (Nat.le_antisymm hle (Nat.not_lt.1 hfull))] at hcall
      cases hcall
    have hne : call.2 = carriageReturn → commandNamed (edited (typed calls)) ≠ some .time := by
      intro hreturn htime
      rw [hreturn] at hcall
      exact return_hangs hafter hlt htime hstill hs' hf hs call.1 wait fuel hcall
    obtain ⟨t₁, echo, text, hstep⟩ := step env call.1 hafter hlt hne hs' hf
    obtain ⟨hafter', hon', hheap', hwritten'⟩ := hstep.of_ok hcall
    rw [typed_concat]
    refine ⟨⟨fun p b hp => ?_, fun p hp => ?_⟩, hafter', hon', hheap'.trans hheap, ?_⟩
    · obtain heq | hp := List.prefix_concat_iff.1 hp
      · obtain ⟨rfl, _⟩ := List.append_inj' heq rfl
        exact hlt
      · exact hfit p b hp
    · obtain heq | hp := List.prefix_concat_iff.1 hp
      · obtain ⟨rfl, hlast⟩ := List.append_inj' heq rfl
        exact hne (List.singleton_inj.1 hlast).symm
      · exact hno p hp
    · rw [transcript_concat, List.nil_append, ← List.append_assoc, ← hwritten, ← hheap]
      exact hwritten'

/-- The debug shell goes on for as long as every line fits the buffer and none asks for the time;
whichever of the two comes first ends it. -/
theorem session_returns_iff (ht : t.shell = Shell.boot) (hready : Ready env.lineStatus)
    (hstill : Still env tick) (hon : t.console.On fb) (hf : fb.Fits) (hs : 128 ≤ fb.stride)
    (calls : List (InterruptCpuStatus × BitVec 8)) :
    (∃ wait fuel t', t.run env wait fuel calls = .ok t') ↔
      LinesFit (typed calls) ∧ AsksNoTime (typed calls) := by
  have hboot : t.shell.After [] := ht ▸ Shell.boot_after
  constructor
  · rintro ⟨wait, fuel, t', hrun⟩
    exact (of_run hboot hstill hon hf hs hrun).1
  · rintro ⟨hfit, hno⟩
    obtain ⟨wait, t', hrun, _⟩ := run_returns env hboot hfit hno hready hon hf
    exact ⟨wait, 0, t', hrun wait (Nat.le_refl _) 0⟩

/-- Without frames, on a port that is always ready, five ticks after the start. -/
def sampleSurroundings : Surroundings (PoolState []) where
  frames := framePool [] (Nat.zero_le _)
  pages := fun _ => (0x8000, 0x200)
  memmap := [⟨0, 0x9f000, .usable⟩]
  font := fun _ => 1
  lineStatus := fun _ => 0x20
  ticks := fun _ _ => 5
  cmos := fun _ _ => 0x12
  fadtCentury := 0x32
  bufs := ⟨[], [], [], [], [], []⟩

def sampleTerminal : Terminal (PoolState []) where
  shell := Shell.boot
  port := ⟨0, []⟩
  console := Console.boot oneRow
  heap := Heap.initial ⟨fun _ _ => 0, ⟨∅, Finset.empty_subset _⟩, []⟩ 0 fun _ => 0

/-- The shell is started, and `free` is typed. -/
def sampleCalls : List (InterruptCpuStatus × BitVec 8) :=
  [0x0d, 0x66, 0x72, 0x65, 0x65, 0x0d].map fun b => (readStatus (fun _ => 7) 0, b)

theorem still_sampleSurroundings : Still sampleSurroundings 5 := ⟨rfl, by decide⟩

theorem session_returns_iff_free :
    (∃ wait fuel t', sampleTerminal.run sampleSurroundings wait fuel sampleCalls = .ok t') ↔
      LinesFit (typed sampleCalls) ∧ AsksNoTime (typed sampleCalls) :=
  session_returns_iff rfl ready_always still_sampleSurroundings
    (Console.boot_on oneRow_fits) oneRow_fits (by decide) sampleCalls

/-- While it goes on, the port is sent the transcript of the lines and their answers, byte for
byte; the console stays in its framebuffer and the heap is as it was. -/
theorem session_transcript (ht : t.shell = Shell.boot) (hstill : Still env tick)
    (hon : t.console.On fb) (hf : fb.Fits) (hs : 128 ≤ fb.stride)
    (hrun : t.run env wait fuel calls = .ok t') :
    t'.port.written = t.port.written ++ transcript env t.heap [] calls ∧ t'.console.On fb ∧
      t'.heap = t.heap := by
  obtain ⟨_, _, hon', hheap, hwritten⟩ := of_run (ht ▸ Shell.boot_after) hstill hon hf hs hrun
  exact ⟨hwritten, hon', hheap⟩

theorem linesFit_sampleCalls : LinesFit (typed sampleCalls) := by
  apply linesFit_of_le
  intro p hp
  exact (edited_length_le p).trans (hp.length_le.trans (by decide))

theorem asksNoTime_sampleCalls : AsksNoTime (typed sampleCalls) := by
  intro p hp
  have hall : ∀ q ∈ (typed sampleCalls).inits,
      commandNamed (edited q.dropLast) ≠ some .time := by decide
  have hinit := hall _ ((List.mem_inits _ _).2 hp)
  rwa [List.dropLast_concat] at hinit

theorem session_transcript_free : ∃ wait fuel t',
    sampleTerminal.run sampleSurroundings wait fuel sampleCalls = .ok t' ∧
      t'.port.written = [] ++ transcript sampleSurroundings sampleTerminal.heap [] sampleCalls ∧
      t'.console.On oneRow ∧ t'.heap = sampleTerminal.heap := by
  obtain ⟨wait, t', hrun, _⟩ := run_returns sampleSurroundings (t := sampleTerminal)
    Shell.boot_after linesFit_sampleCalls asksNoTime_sampleCalls ready_always
    (Console.boot_on oneRow_fits) oneRow_fits
  have hreturns := hrun wait (Nat.le_refl _) 0
  exact ⟨wait, 0, t', hreturns, session_transcript rfl still_sampleSurroundings
    (Console.boot_on oneRow_fits) oneRow_fits (by decide) hreturns⟩

end AdaOS.Printf.Terminal
