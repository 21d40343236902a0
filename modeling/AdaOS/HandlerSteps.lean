import AdaOS.Handler
import AdaOS.TerminalRuns

namespace AdaOS.Printf
set_option autoImplicit true

open Traced

/-- A message that `%s` can print. -/
def Message (msg : String) : Prop := 0 ∉ literal msg ∧ (literal msg).length < 100

instance (msg : String) : Decidable (Message msg) :=
  inferInstanceAs (Decidable (0 ∉ literal msg ∧ (literal msg).length < 100))

def Response.Wf : Response → Prop
  | .fault msg _ _ => Message msg
  | .trap msg => Message msg
  | .abort msg => Message msg
  | _ => True

theorem response_wf (vector : BitVec 64) : (response vector).Wf := by
  rw [response]
  split
  all_goals trivial

/-- What `k_log` is given for an interrupt without a handler. -/
def hitText (opening msg : String) (vector : BitVec 64) : List (BitVec 8) :=
  literal opening ++ (literal msg ++ (literal " (" ++ (decimal (vector.truncate 32).toInt ++
    (literal ", 0x" ++ (standardDigits false 16 (vector.truncate 32).toNat ++ literal ")'")))))

def hitPieces (opening : String) : List Piece :=
  labelled opening ++ (plainString :: (labelled " (" ++ (plainDecimal :: (labelled ", 0x" ++
    (plainHex :: labelled ")'")))))

theorem hit_lineText (opening format : String) (hwf : ∀ p ∈ hitPieces opening, p.Wf)
    (hformat : render (hitPieces opening) = literal format) (hopening : Message opening)
    (hmsg : Message msg) (vector : BitVec 64) :
    LineText (format, [.ofString msg, .ofWord vector, .ofWord vector])
      (hitText opening msg vector) := by
  have hhex := (comesTo_labelled ")'").arg (text_plainHex (.ofWord vector) [])
  have hdecimal := (hhex.label ", 0x").arg (text_plainDecimal (.ofWord vector) _)
  have hall := ((hdecimal.label " (").arg (text_stringArg hmsg.1 hmsg.2 _)).label opening
  have hdigits : (standardDigits false 16 (vector.truncate 32).toNat).length ≤ 8 :=
    length_standardDigits_le false (by decide) (by decide) (vector.truncate 32).isLt
  have hlen := length_decimal_le (vector.truncate 32)
  have hlabels : (literal " (").length = 2 ∧ (literal ", 0x").length = 4 ∧
      (literal ")'").length = 2 := by decide
  refine ⟨?_, ?_, ?_⟩
  · rw [stringLiteral, ← hformat]
    exact hall.text_eq hwf []
  · have hvector0 : 0 ∉ decimal (vector.truncate 32).toInt :=
      fun h0 => (shown_decimal _ 0 h0).1 rfl
    have hhex0 : 0 ∉ standardDigits false 16 (vector.truncate 32).toNat :=
      fun h0 => (shown_standardDigits false (by decide) (by decide) _ 0 h0).1 rfl
    simp only [hitText, List.mem_append, not_or]
    exact ⟨hopening.1, hmsg.1, by decide, hvector0, by decide, hhex0, by decide⟩
  · have hopeningLen := hopening.2
    have hmsgLen := hmsg.2
    simp only [hitText, List.length_append]
    omega

section On
variable {fb : Framebuffer} {c : Console} {msg : String}

theorem unimplementedTrap_on (h : c.On fb) (hf : fb.Fits) (hs : 128 ≤ fb.stride)
    (font : Nat → BitVec 64) (hmsg : Message msg) (context : InterruptCpuStatus) :
    ∃ d, unimplementedTrap font c msg context = .ok d ∧ d.On fb := by
  obtain ⟨htext, h0, hlen⟩ := hit_lineText "Hit trap: '" "Hit trap: '%s (%d, 0x%x)'"
    (by decide) (by decide) (by decide) hmsg context.vectorNumber
  obtain ⟨d, hd, hprints⟩ := kLog_prints h hf hs font htext h0 hlen
  exact ⟨d, hd, hprints.on⟩

theorem unimplementedFault_on (h : c.On fb) (hf : fb.Fits) (hs : 128 ≤ fb.stride)
    (font : Nat → BitVec 64) (hmsg : Message msg) (context : InterruptCpuStatus) :
    ∃ d, unimplementedFault font c msg context = .ok d ∧ d.On fb := by
  obtain ⟨htext, h0, hlen⟩ := hit_lineText "Hit fault: '" "Hit fault: '%s (%d, 0x%x)'"
    (by decide) (by decide) (by decide) hmsg context.vectorNumber
  obtain ⟨d, hd, hprints⟩ := kLog_prints h hf hs font htext h0 hlen
  obtain ⟨e, he, hdump⟩ := printCpuStatusInterrupt_prints hprints.on hf hs font context
  refine ⟨e, ?_, hdump.on⟩
  rw [unimplementedFault, hd]
  exact he

def haltPieces : List Piece :=
  labelled "Unrecoverable error: " ++ (plainString :: labelled " Halt.")

theorem halt_lineText (hmsg : Message msg) :
    LineText ("Unrecoverable error: %s Halt.", [.ofString msg])
      (literal "Unrecoverable error: " ++ (literal msg ++ literal " Halt.")) := by
  have hall := ((comesTo_labelled " Halt.").arg (text_stringArg hmsg.1 hmsg.2 [])).label
    "Unrecoverable error: "
  have hrender : render haltPieces = literal "Unrecoverable error: %s Halt." := by decide
  have hlabels : (literal "Unrecoverable error: ").length = 21 ∧
      (literal " Halt.").length = 6 := by decide
  have hlen := hmsg.2
  refine ⟨?_, ?_, ?_⟩
  · rw [stringLiteral, ← hrender]
    exact hall.text_eq (by decide : ∀ p ∈ haltPieces, p.Wf) []
  · simp only [List.mem_append, not_or]
    exact ⟨by decide, hmsg.1, by decide⟩
  · simp only [List.length_append]
    omega

def panickedPieces : List Piece :=
  labelled "Something is super fucky, panic panicked " ++
    (plainDecimal :: labelled " time(s). yay osdev >:3")

theorem panicked_lineText (arg : Arg) :
    LineText ("Something is super fucky, panic panicked %d time(s). yay osdev >:3", [arg])
      (literal "Something is super fucky, panic panicked " ++ (decimal arg.int.toInt ++
        literal " time(s). yay osdev >:3")) := by
  have hall := ((comesTo_labelled " time(s). yay osdev >:3").arg (text_plainDecimal arg [])).label
    "Something is super fucky, panic panicked "
  have hrender : render panickedPieces =
      literal "Something is super fucky, panic panicked %d time(s). yay osdev >:3" := by decide
  have hlabels : (literal "Something is super fucky, panic panicked ").length = 41 ∧
      (literal " time(s). yay osdev >:3").length = 23 := by decide
  have hlen := length_decimal_le arg.int
  have h0 : 0 ∉ decimal arg.int.toInt := fun h0 => (shown_decimal _ 0 h0).1 rfl
  refine ⟨?_, ?_, ?_⟩
  · rw [stringLiteral, ← hrender]
    exact hall.text_eq (by decide : ∀ p ∈ panickedPieces, p.Wf) []
  · simp only [List.mem_append, not_or]
    exact ⟨by decide, h0, by decide⟩
  · simp only [List.length_append]
    omega

theorem kErr_on {line : String × List Arg} (h : c.On fb) (hf : fb.Fits) (hs : 128 ≤ fb.stride)
    (font : Nat → BitVec 64) (hline : LineText line t) :
    ∃ d, kErr font c (stringLiteral line.1) line.2 = .ok d ∧ d.On fb := by
  obtain ⟨htext, h0, hlen⟩ := hline
  obtain ⟨d, hd, hprints⟩ := kTagged_prints h hf hs font ERR_TEXT_COLOUR
    (by decide : 0 ∉ literal "ERR" ∧ (literal "ERR").length < 256)
    (by decide : 0 ∉ literal "] Kernel: " ∧ (literal "] Kernel: ").length < 256) htext h0 hlen
  exact ⟨d, hd, hprints.on⟩

/-- `panics` after a `panic`. -/
def panicked (panics : BitVec 8) : BitVec 8 := if panics > 0 then panics else panics + 1

theorem panicked_of_pos {panics : BitVec 8} (h : panics > 0) : panicked panics = panics := if_pos h

theorem panicked_idem (panics : BitVec 8) : panicked (panicked panics) = panicked panics := by
  by_cases hpanics : panics > 0
  · rw [panicked_of_pos hpanics, panicked_of_pos hpanics]
  · obtain rfl : panics = 0 := BitVec.le_zero_iff.1 (BitVec.not_lt.1 hpanics)
    rfl

theorem panic_on {alarm : Alarm} {panics : BitVec 8} (h : c.On fb) (hf : fb.Fits)
    (hs : 128 ≤ fb.stride) (hmute : alarm.state.pitInitialized = 0 ∨ panics > 0)
    (font : Nat → BitVec 64) (hmsg : Message msg) :
    ∃ d, (∀ fuel, panic font alarm fuel c panics msg =
      .ok (d, panicked panics, [])) ∧ d.On fb := by
  by_cases hpanics : panics > 0
  · obtain ⟨d, hd, hon⟩ := kErr_on h hf hs font
      (panicked_lineText (.ofInt (panics.setWidth 32)))
    refine ⟨d, fun fuel => ?_, hon⟩
    rw [panic, panicked_of_pos hpanics, if_pos hpanics, hd]
    rfl
  · obtain ⟨d, hd, hon⟩ := kErr_on h hf hs font (halt_lineText hmsg)
    have hpit : ¬alarm.state.pitInitialized ≠ 0 := not_not.2 (hmute.resolve_right hpanics)
    refine ⟨d, fun fuel => ?_, hon⟩
    rw [panic, panicked, if_neg hpanics, if_neg hpanics]
    dsimp only
    rw [hd, bind_of_ok rfl, if_neg hpit]
    rfl

theorem unimplementedAbort_on {alarm : Alarm} {panics : BitVec 8} (h : c.On fb) (hf : fb.Fits)
    (hs : 128 ≤ fb.stride) (hmute : alarm.state.pitInitialized = 0 ∨ panics > 0)
    (font : Nat → BitVec 64) (hmsg : Message msg) (context : InterruptCpuStatus) :
    ∃ d, (∀ fuel, unimplementedAbort font alarm fuel c panics msg context =
      .ok (d, panicked panics, [])) ∧ d.On fb := by
  obtain ⟨d, hd, hdump⟩ := printCpuStatusInterrupt_prints h hf hs font context
  obtain ⟨e, he, hon⟩ := panic_on hdump.on hf hs hmute font hmsg
  refine ⟨e, fun fuel => ?_, hon⟩
  rw [unimplementedAbort, hd]
  exact he fuel

end On

/-- What `exception_handler` does about an interrupt. -/
def Delivery.response (d : Delivery) : Response := Printf.response d.context.vectorNumber

/-- The interrupts that are handled, up to the first whose handler halts. -/
def taken : List Delivery → List Delivery
  | [] => []
  | d :: ds => d :: if d.response.halts then [] else taken ds

/-- The bytes that the handler of the serial port reads. -/
def serialBytes (ds : List Delivery) : List (BitVec 8) :=
  (ds.filter fun d => d.response = .serial).map Delivery.byte

def Ending.machine : Ending α → α
  | .returned a => a
  | .halted a => a

def Ending.hasHalted : Ending α → Bool
  | .returned _ => false
  | .halted _ => true

namespace Machine
variable {σ : Type} {env : Surroundings σ} {m m' m₁ m₂ : Machine σ} {d : Delivery}
  {ds : List Delivery} {fb : Framebuffer} {pre : List (BitVec 8)}

/-- The machine `m'` is `m` once these interrupts have been handled. -/
structure Handles (fb : Framebuffer) (m m' : Machine σ) (pre : List (BitVec 8))
    (ds : List Delivery) : Prop where
  pit : m'.pitTicks = m.pitTicks + .ofNat 64 (ds.countP fun d => d.response = .pit)
  apic : m'.apicTicks = m.apicTicks + .ofNat 64 (ds.countP fun d => d.response = .apicTimer)
  acks : m'.acks = m.acks ++ ds.map fun d => ackOf d.context.vectorNumber
  after : m'.terminal.shell.After (pre ++ serialBytes ds)
  on : m'.terminal.console.On fb
  heap : m'.terminal.heap = m.terminal.heap
  written : m.terminal.port.written <+: m'.terminal.port.written
  state : m'.state = m.state
  goal : m'.timerGoalFrequency = m.timerGoalFrequency
  panics : m'.panics = if ds.any fun d => d.response.aborts then panicked m.panics else m.panics

theorem Handles.nil (hafter : m.terminal.shell.After pre) (hon : m.terminal.console.On fb) :
    Handles fb m m pre [] := by
  refine ⟨(BitVec.add_zero _).symm, (BitVec.add_zero _).symm, (List.append_nil _).symm, ?_, hon,
    rfl, List.prefix_refl _, rfl, rfl, rfl⟩
  rw [serialBytes, List.filter_nil, List.map_nil, List.append_nil]
  exact hafter

theorem any_single (d : Delivery) :
    [d].any (fun d => d.response.aborts) = d.response.aborts := Bool.or_false _

theorem Handles.cons (h : Handles fb m m₁ pre [d])
    (h' : Handles fb m₁ m₂ (pre ++ serialBytes [d]) ds) : Handles fb m m₂ pre (d :: ds) := by
  have hcount : ∀ r : Response, (d :: ds).countP (fun d => d.response = r) =
      [d].countP (fun d => d.response = r) + ds.countP fun d => d.response = r := by
    intro r
    rw [← List.countP_append, List.singleton_append]
  refine ⟨?_, ?_, ?_, ?_, h'.on, h'.heap.trans h.heap, h.written.trans h'.written,
    h'.state.trans h.state, h'.goal.trans h.goal, ?_⟩
  · rw [h'.pit, h.pit, hcount, BitVec.ofNat_add, BitVec.add_assoc]
  · rw [h'.apic, h.apic, hcount, BitVec.ofNat_add, BitVec.add_assoc]
  · rw [h'.acks, h.acks, List.append_assoc]
    rfl
  · have hafter := h'.after
    rwa [List.append_assoc, serialBytes, serialBytes, ← List.map_append, ← List.filter_append,
      List.singleton_append] at hafter
  · rw [h'.panics, h.panics, any_single, List.any_cons]
    cases d.response.aborts with
    | false => rfl
    | true =>
      rw [if_pos rfl, panicked_idem, Bool.true_or, if_pos rfl, ite_self]

def withPort (m : Machine σ) (port : Com1) : Machine σ :=
  { m with terminal := { m.terminal with port := port } }

/-- What one call of `exception_handler` does: the port is sent something at once and then a text,
and the handler returns unless the interrupt is one that halts the machine. -/
structure Step (env : Surroundings σ) (fb : Framebuffer) (m m₁ : Machine σ)
    (pre : List (BitVec 8)) (d : Delivery) (echo text : List (BitVec 8)) : Prop where
  handles : ∀ port : Com1, m.terminal.port.written <+: port.written →
    Handles fb m (m₁.withPort port) pre [d]
  eq : ∀ wait fuel, m.exceptionHandler env wait fuel d =
    (send env.lineStatus wait { m.terminal.port with
      written := m.terminal.port.written ++ echo } text).map fun port =>
        if d.response.halts then .halted (m₁.withPort port) else .returned (m₁.withPort port)

theorem countP_single (d : Delivery) (r : Response) :
    [d].countP (fun d => d.response = r) = if d.response = r then 1 else 0 := by
  rw [List.countP_singleton]
  simp only [decide_eq_true_eq]

theorem serialBytes_single (d : Delivery) :
    serialBytes [d] = if d.response = .serial then [d.byte] else [] := by
  rw [serialBytes, List.filter_singleton]
  by_cases hserial : d.response = .serial
  · rw [if_pos hserial, decide_eq_true hserial]
    rfl
  · rw [if_neg hserial, decide_eq_false hserial]
    rfl

theorem handles_shown {console : Console} (hafter : m.terminal.shell.After pre)
    (hon : console.On fb) (hpit : d.response ≠ .pit) (hserial : d.response ≠ .serial)
    (hapic : d.response ≠ .apicTimer) {panics : BitVec 8}
    (hpanics : panics = if d.response.aborts then panicked m.panics else m.panics) {port : Com1}
    (hport : m.terminal.port.written <+: port.written) :
    Handles fb m { m with
      acks := m.acks ++ [ackOf d.context.vectorNumber]
      panics := panics
      terminal := { m.terminal with console := console, port := port } } pre [d] := by
  refine ⟨?_, ?_, rfl, ?_, hon, rfl, hport, rfl, rfl, ?_⟩
  · rw [countP_single, if_neg hpit]
    exact (BitVec.add_zero _).symm
  · rw [countP_single, if_neg hapic]
    exact (BitVec.add_zero _).symm
  · rw [serialBytes_single, if_neg hserial, List.append_nil]
    exact hafter
  · rw [any_single]
    exact hpanics

theorem mirror_eq (t : Terminal σ) (env : Surroundings σ) (wait : Nat) (console : Console) :
    t.mirror env wait console =
      (send env.lineStatus wait t.port (console.sent.drop t.console.sent.length)).map fun port =>
        { t with port := port, console := console } := Terminal.bind_port _ _

/-- A `panic` halts at once, without the beeps. -/
def Mute (m : Machine σ) : Prop := m.state.pitInitialized = 0 ∨ m.panics > 0

/-- The rest of the handler of an interrupt that is only shown. -/
def shownEnding (env : Surroundings σ) (wait : Nat) (m : Machine σ) (d : Delivery)
    (console : Console) (panics : BitVec 8) : Except Fault (Ending (Machine σ)) := do
  let t ← m.terminal.mirror env wait console
  let m := { m with
    acks := m.acks ++ [ackOf d.context.vectorNumber]
    panics := panics
    terminal := t }
  .ok (if d.response.halts then .halted m else .returned m)

section Responses
variable (hafter : m.terminal.shell.After pre) (hon : m.terminal.console.On fb) (hf : fb.Fits)
  (hs : 128 ≤ fb.stride)
include hafter

theorem step_shown {console : Console} {panics : BitVec 8} (hconsole : console.On fb)
    (hpit : d.response ≠ .pit) (hserial : d.response ≠ .serial) (hapic : d.response ≠ .apicTimer)
    (hpanics : panics = if d.response.aborts then panicked m.panics else m.panics)
    (heq : ∀ wait fuel, m.exceptionHandler env wait fuel d =
      m.shownEnding env wait d console panics) :
    ∃ m₁ text, Step env fb m m₁ pre d [] text := by
  refine ⟨{ m with
    acks := m.acks ++ [ackOf d.context.vectorNumber]
    panics := panics
    terminal := { m.terminal with console := console } },
    console.sent.drop m.terminal.console.sent.length,
    ⟨fun port hport => handles_shown hafter hconsole hpit hserial hapic hpanics hport,
      fun wait fuel => ?_⟩⟩
  rw [heq, shownEnding, mirror_eq, List.append_nil]
  cases send env.lineStatus wait m.terminal.port
    (console.sent.drop m.terminal.console.sent.length) <;> rfl

include hon hf hs

theorem step_fault (env : Surroundings σ) {msg : String} {again halts : Bool}
    (hd : d.response = .fault msg again halts) :
    ∃ m₁ text, Step env fb m m₁ pre d [] text := by
  have hresponse : Printf.response d.context.vectorNumber = .fault msg again halts := hd
  have hmsg : Message msg := by
    have hwf := response_wf d.context.vectorNumber
    rwa [hresponse] at hwf
  obtain ⟨c, hc, honc⟩ := unimplementedFault_on hon hf hs env.font hmsg d.context
  obtain ⟨c', hc', honc'⟩ : ∃ c', (if again then printCpuStatusInterrupt env.font c d.context
      else .ok c) = .ok c' ∧ c'.On fb := by
    cases again with
    | false => exact ⟨c, rfl, honc⟩
    | true =>
      obtain ⟨c', hc', hprints⟩ := printCpuStatusInterrupt_prints honc hf hs env.font d.context
      exact ⟨c', hc', hprints.on⟩
  apply step_shown hafter honc' (by rw [hd]; exact nofun) (by rw [hd]; exact nofun)
    (by rw [hd]; exact nofun) (by rw [hd]; rfl : m.panics = _)
  intro wait fuel
  rw [exceptionHandler, hresponse]
  dsimp only
  rw [hc, bind_of_ok rfl, shownEnding, hd]
  cases again with
  | false =>
    cases hc'
    rfl
  | true =>
    have hdump : printCpuStatusInterrupt env.font c d.context = .ok c' := hc'
    rw [if_pos rfl, hdump]
    rfl

theorem step_trap (env : Surroundings σ) {msg : String} (hd : d.response = .trap msg) :
    ∃ m₁ text, Step env fb m m₁ pre d [] text := by
  have hresponse : Printf.response d.context.vectorNumber = .trap msg := hd
  have hmsg : Message msg := by
    have hwf := response_wf d.context.vectorNumber
    rwa [hresponse] at hwf
  obtain ⟨c, hc, honc⟩ := unimplementedTrap_on hon hf hs env.font hmsg d.context
  apply step_shown hafter honc (by rw [hd]; exact nofun) (by rw [hd]; exact nofun)
    (by rw [hd]; exact nofun) (by rw [hd]; rfl : m.panics = _)
  intro wait fuel
  rw [exceptionHandler, hresponse]
  dsimp only
  rw [hc, bind_of_ok rfl, shownEnding, hd]
  rfl

theorem step_abort (env : Surroundings σ) {msg : String} (hd : d.response = .abort msg)
    (hmute : m.Mute) :
    ∃ m₁ text, Step env fb m m₁ pre d [] text := by
  have hresponse : Printf.response d.context.vectorNumber = .abort msg := hd
  have hmsg : Message msg := by
    have hwf := response_wf d.context.vectorNumber
    rwa [hresponse] at hwf
  have hquiet : m.alarm.state.pitInitialized = 0 ∨ m.panics > 0 := hmute
  obtain ⟨c, hc, honc⟩ := unimplementedAbort_on hon hf hs hquiet env.font hmsg d.context
  apply step_shown hafter honc (by rw [hd]; exact nofun) (by rw [hd]; exact nofun)
    (by rw [hd]; exact nofun) (by rw [hd]; rfl : panicked m.panics = _)
  intro wait fuel
  have hcall := hc fuel
  rw [exceptionHandler, hresponse]
  dsimp only
  have halarm : ∀ acks, alarm { m with acks := acks } = m.alarm := fun _ => rfl
  rw [halarm, hcall, bind_of_ok rfl, shownEnding, hd]
  rfl

end Responses

theorem step_pit (env : Surroundings σ) (hafter : m.terminal.shell.After pre)
    (hon : m.terminal.console.On fb) (hd : d.response = .pit) :
    ∃ m₁, Step env fb m m₁ pre d [] [] := by
  have hresponse : Printf.response d.context.vectorNumber = .pit := hd
  refine ⟨{ m with
    acks := m.acks ++ [ackOf d.context.vectorNumber]
    pitTicks := m.pitTicks + 1 },
    ⟨fun port hport => ⟨?_, ?_, rfl, ?_, hon, rfl, hport, rfl, rfl, ?_⟩, fun wait fuel => ?_⟩⟩
  · rw [countP_single, if_pos hd]
    rfl
  · rw [countP_single, hd]
    exact (BitVec.add_zero _).symm
  · rw [serialBytes_single, hd, if_neg nofun, List.append_nil]
    exact hafter
  · rw [any_single, hd]
    rfl
  · rw [exceptionHandler, hresponse, hd, List.append_nil]
    rfl

theorem step_apicTimer (env : Surroundings σ) (hafter : m.terminal.shell.After pre)
    (hon : m.terminal.console.On fb) (hd : d.response = .apicTimer) :
    ∃ m₁, Step env fb m m₁ pre d [] [] := by
  have hresponse : Printf.response d.context.vectorNumber = .apicTimer := hd
  refine ⟨{ m with
    acks := m.acks ++ [ackOf d.context.vectorNumber]
    apicTicks := m.apicTicks + 1 },
    ⟨fun port hport => ⟨?_, ?_, rfl, ?_, hon, rfl, hport, rfl, rfl, ?_⟩, fun wait fuel => ?_⟩⟩
  · rw [countP_single, hd]
    exact (BitVec.add_zero _).symm
  · rw [countP_single, if_pos hd]
    rfl
  · rw [serialBytes_single, hd, if_neg nofun, List.append_nil]
    exact hafter
  · rw [any_single, hd]
    rfl
  · rw [exceptionHandler, hresponse, hd, List.append_nil]
    rfl

theorem step_serial (hafter : m.terminal.shell.After pre) (hon : m.terminal.console.On fb)
    (hf : fb.Fits) (hd : d.response = .serial) (hl : (edited pre).length < 255)
    (hne : d.byte = carriageReturn → commandNamed (edited pre) ≠ some .time) :
    ∃ m₁ echo text, Step env fb m m₁ pre d echo text := by
  have hresponse : Printf.response d.context.vectorNumber = .serial := hd
  obtain ⟨t₁, echo, text, hstep⟩ := Terminal.step (m.surroundings env) d.context
    hafter hl hne hon hf
  refine ⟨{ m with
    acks := m.acks ++ [ackOf d.context.vectorNumber]
    terminal := t₁ }, echo, text,
    ⟨fun port hport => ⟨?_, ?_, rfl, ?_, hstep.on, hstep.heap, hport, rfl, rfl, ?_⟩,
      fun wait fuel => ?_⟩⟩
  · rw [countP_single, hd]
    exact (BitVec.add_zero _).symm
  · rw [countP_single, hd]
    exact (BitVec.add_zero _).symm
  · rw [serialBytes_single, if_pos hd]
    exact hstep.after
  · rw [any_single, hd]
    rfl
  · have heq := hstep.eq wait fuel
    have hlines : (m.surroundings env).lineStatus = env.lineStatus := rfl
    rw [hlines] at heq
    have hsurroundings : ∀ acks, Machine.surroundings env { m with acks := acks } =
        m.surroundings env := fun _ => rfl
    rw [exceptionHandler, hresponse, hd]
    dsimp only
    rw [hsurroundings, heq]
    cases send env.lineStatus wait { m.terminal.port with
      written := m.terminal.port.written ++ echo } text <;> rfl

/-- A serial interrupt that neither overruns the line nor asks for the time. -/
def Harmless (pre : List (BitVec 8)) (d : Delivery) : Prop :=
  d.response = .serial → (edited pre).length < 255 ∧
    (d.byte = carriageReturn → commandNamed (edited pre) ≠ some .time)

/-- The step lemma: every other interrupt is handled, or halts the machine in order. -/
theorem step (env : Surroundings σ) (hafter : m.terminal.shell.After pre)
    (hon : m.terminal.console.On fb) (hf : fb.Fits) (hs : 128 ≤ fb.stride) (hd : Harmless pre d)
    (hmute : d.response.aborts = true → m.Mute) :
    ∃ m₁ echo text, Step env fb m m₁ pre d echo text := by
  cases hresponse : d.response with
  | fault msg again halts =>
    obtain ⟨m₁, text, hstep⟩ := step_fault hafter hon hf hs env hresponse
    exact ⟨m₁, [], text, hstep⟩
  | trap msg =>
    obtain ⟨m₁, text, hstep⟩ := step_trap hafter hon hf hs env hresponse
    exact ⟨m₁, [], text, hstep⟩
  | abort msg =>
    rw [hresponse] at hmute
    obtain ⟨m₁, text, hstep⟩ := step_abort hafter hon hf hs env hresponse (hmute rfl)
    exact ⟨m₁, [], text, hstep⟩
  | pit =>
    obtain ⟨m₁, hstep⟩ := step_pit env hafter hon hresponse
    exact ⟨m₁, [], [], hstep⟩
  | serial =>
    obtain ⟨hl, hne⟩ := hd hresponse
    exact step_serial hafter hon hf hresponse hl hne
  | apicTimer =>
    obtain ⟨m₁, hstep⟩ := step_apicTimer env hafter hon hresponse
    exact ⟨m₁, [], [], hstep⟩

theorem Step.of_ok {echo text : List (BitVec 8)} {e : Ending (Machine σ)}
    (h : Step env fb m m₁ pre d echo text) (hok : m.exceptionHandler env wait fuel d = .ok e) :
    Handles fb m e.machine pre [d] ∧ e.hasHalted = d.response.halts := by
  rw [h.eq] at hok
  cases hsend : send env.lineStatus wait { m.terminal.port with
      written := m.terminal.port.written ++ echo } text with
  | error f =>
    rw [hsend] at hok
    cases hok
  | ok port =>
    rw [hsend] at hok
    have hport : m.terminal.port.written <+: port.written := by
      rw [Terminal.send_written hsend, List.append_assoc]
      exact List.prefix_append _ _
    have hhandles := h.handles port hport
    cases hhalts : d.response.halts <;> rw [hhalts] at hok <;> cases hok
    · exact ⟨hhandles, rfl⟩
    · exact ⟨hhandles, rfl⟩

theorem Step.returns {echo text : List (BitVec 8)} (h : Step env fb m m₁ pre d echo text)
    (hready : Ready env.lineStatus) :
    ∃ wait e, ∀ wait' ≥ wait, ∀ fuel, m.exceptionHandler env wait' fuel d = .ok e := by
  obtain ⟨wait, port, hsend, _⟩ := send_ready hready text
    { m.terminal.port with written := m.terminal.port.written ++ echo }
  refine ⟨wait, if d.response.halts then .halted (m₁.withPort port)
    else .returned (m₁.withPort port), fun wait' hle fuel => ?_⟩
  rw [h.eq, send_mono hsend hle]
  rfl

end Machine

end AdaOS.Printf
