import Mathlib.Data.List.Find
import AdaOS.ShellLines
import AdaOS.TerminalTexts

namespace AdaOS.Printf
set_option autoImplicit true

open Traced

/-- The first command whose name the line starts with. -/
def commandNamed (line : List (BitVec 8)) : Option Command :=
  (commands.find? fun (name, _, _) => (literal name).isPrefixOf line).map fun (_, _, func) => func

theorem prefix_of_prefix_append {p l t : List (BitVec 8)} (h : p <+: l ++ b :: t) (hb : b ∉ p) :
    p <+: l := by
  obtain hp | ⟨q, rfl⟩ := List.prefix_or_prefix_of_prefix h (List.prefix_append l (b :: t))
  · exact hp
  · rw [List.prefix_append_right_inj] at h
    cases q with
    | nil =>
      rw [List.append_nil]
    | cons c q =>
      obtain rfl := (List.cons_prefix_cons.1 h).1
      exact absurd (List.mem_append_right l List.mem_cons_self) hb

theorem commands_wf : ∀ c ∈ commands, c.2.1 = (literal c.1).length ∧
    carriageReturn ∉ literal c.1 ∧ 0 ∉ literal c.1 := by decide

theorem memcmp_name {l : List (BitVec 8)} {name : String} (h0 : 0 ∉ literal name) :
    memcmp (fun i => l.getD i 0) (cString name) (literal name).length = 0 ↔
      literal name <+: l := by
  rw [memcmp_eq_zero, List.prefix_iff_getElem?]
  apply forall₂_congr
  intro i hi
  have hne : (literal name)[i] ≠ 0 := ne_of_mem_of_not_mem (List.getElem_mem hi) h0
  rw [cString_eq, List.getElem?_eq_getElem hi, List.getD_eq_getElem?_getD, Option.getD_some]
  cases l[i]? with
  | none =>
    rw [Option.getD_none]
    exact ⟨fun h => absurd h.symm hne, fun h => absurd h nofun⟩
  | some b =>
    rw [Option.getD_some, Option.some.injEq]

theorem findCommand_eq {buf : Vector (BitVec 8) 255}
    (h : buf.toList = line ++ carriageReturn :: rest) : findCommand buf = commandNamed line := by
  rw [findCommand, commandNamed]
  congr 1
  apply List.find?_congr
  intro c hc
  obtain ⟨hlen, hcr, h0⟩ := commands_wf c hc
  rw [Bool.eq_iff_iff, beq_iff_eq, List.isPrefixOf_iff_prefix, hlen, memcmp_name h0, h]
  exact ⟨fun hp => prefix_of_prefix_append hp hcr, fun hp => hp.trans (List.prefix_append ..)⟩

theorem carriageReturn_not_mem_edited (bytes : List (BitVec 8)) :
    carriageReturn ∉ edited bytes := by
  induction bytes using List.reverseRecOn with
  | nil => exact List.not_mem_nil
  | append_singleton bytes b ih =>
    by_cases hb : b = carriageReturn
    · rw [hb, edited_concat_return]
      exact List.not_mem_nil
    · have hone : carriageReturn ∉ [b] := fun h => hb (List.mem_singleton.1 h).symm
      by_cases hr : carriageReturn ∈ bytes
      · rw [edited_concat hr hb]
        split
        · exact fun h => ih (List.mem_of_mem_dropLast h)
        · exact List.not_mem_append ih hone
      · rw [edited_of_idle (List.not_mem_append hr hone)]
        exact List.not_mem_nil

theorem send_nil (lineStatus : Nat → BitVec 8) (wait : Nat) (port : Com1) :
    send lineStatus wait port [] = .ok port := rfl

/-- `serial_write_string` on a string literal that its index can count. -/
theorem serialWriteString_eq {s : String} (h0 : 0 ∉ literal s) (hlen : (literal s).length < 256)
    (lineStatus : Nat → BitVec 8) (wait : Nat) (port : Com1) :
    port.serialWriteString lineStatus (cString s) wait 256 =
      send lineStatus wait port (literal s) := by
  have hfrom : ∀ fuel i, (literal s).length - i < fuel → i ≤ (literal s).length →
      ∀ port, Com1.serialWriteStringFrom lineStatus (cString s) wait fuel i port =
        send lineStatus wait port ((literal s).drop i) := by
    intro fuel
    induction fuel with
    | zero => exact fun i hfuel => absurd hfuel (Nat.not_lt_zero _)
    | succ fuel ih =>
      intro i hfuel hi port
      rw [Com1.serialWriteStringFrom, cString_eq]
      obtain hlt | rfl := Nat.lt_or_eq_of_le hi
      · have hne : (literal s)[i] ≠ 0 := ne_of_mem_of_not_mem (List.getElem_mem hlt) h0
        have hnext : (i + 1) % 256 = i + 1 := Nat.mod_eq_of_lt (by omega)
        rw [List.getElem?_eq_getElem hlt, Option.getD_some, if_neg hne, hnext,
          List.drop_eq_getElem_cons hlt, send, List.foldlM_cons]
        apply bind_congr
        intro port'
        exact ih (i + 1) (by omega) hlt port'
      · rw [List.getElem?_eq_none (Nat.le_refl _), Option.getD_none, if_pos rfl,
          List.drop_length, send_nil]
  exact hfrom 256 0 (by omega) (Nat.zero_le _) port

theorem sent_consoleWriteString (c : Console) (s : String) :
    (c.serialWriteString s).sent = c.sent ++ literal s := by
  rw [Console.serialWriteString, literal]
  induction s.toList generalizing c with
  | nil => exact (List.append_nil _).symm
  | cons a l ih =>
    rw [List.foldl_cons, ih, Console.sent_serialWrite, List.append_assoc, List.map_cons]
    rfl

namespace Terminal
variable {σ : Type} {env : Surroundings σ} {context : InterruptCpuStatus} {t t' : Terminal σ}
  {fb : Framebuffer}

/-- What a command other than `time` sends. -/
def commandText (env : Surroundings σ) (heap : Heap σ) (context : InterruptCpuStatus) :
    Command → List (BitVec 8)
  | .memmap => memmapText env.memmap
  | .clear => literal "Cleared VGA.\n"
  | .free => freeText (env.pages heap.vmm.frames).1 (env.pages heap.vmm.frames).2
  | .time => []
  | .reg => statusText context

def replyText (env : Surroundings σ) (heap : Heap σ) (context : InterruptCpuStatus)
    (running : Bool) (line : List (BitVec 8)) : List (BitVec 8) :=
  match commandNamed line with
  | some func => commandText env heap context func
  | none => if running ∧ line ≠ [] then literal "Unkown Command.\n" else []

theorem bind_port {α β : Type} (x : Except Fault α) (f : α → β) :
    (x >>= fun a => .ok (f a)) = x.map f := by
  cases x <;> rfl

theorem perform_eq {func : Command} (hne : func ≠ .time) (hon : t.console.On fb) (hf : fb.Fits) :
    ∃ console, console.On fb ∧ ∀ wait fuel, t.perform env wait fuel context func =
      (send env.lineStatus wait t.port (commandText env t.heap context func)).map fun port =>
        { t with port := port, console := console } := by
  cases func with
  | memmap =>
    refine ⟨t.console, hon, fun wait fuel => ?_⟩
    rw [perform, serialPrintMemMap_eq, bind_port, commandText]
  | clear =>
    have hclear := hon.clear_eq hf
    have hsent : (t.console.cleared fb).sent = t.console.sent ++ literal "Cleared VGA.\n" :=
      sent_consoleWriteString _ _
    refine ⟨t.console.cleared fb, hon.cleared hf, fun wait fuel => ?_⟩
    rw [perform, hclear, bind_of_ok rfl, mirror, hsent, List.drop_left, bind_port, commandText]
  | free =>
    refine ⟨t.console, hon, fun wait fuel => ?_⟩
    change (serialPrintFreeRam _ _ _ (env.pages t.heap.vmm.frames).1
      (env.pages t.heap.vmm.frames).2 >>= fun port => .ok { t with port := port }) = _
    rw [serialPrintFreeRam_eq, bind_port, commandText]
  | time => exact absurd rfl hne
  | reg =>
    refine ⟨t.console, hon, fun wait fuel => ?_⟩
    rw [perform, printCpuStatus_eq, bind_port, commandText]

theorem unknownCommand_lineText :
    LineText ("Unkown Command.\n", []) (literal "Unkown Command.\n") :=
  ⟨text_plainLiteral (by decide), by decide, by decide⟩

theorem lineBuffer_first {buf : Vector (BitVec 8) 255}
    (h : buf.toList = line ++ carriageReturn :: rest) (hcr : carriageReturn ∉ line) :
    buf.get 0 ≠ carriageReturn ↔ line ≠ [] := by
  have hfirst : buf.get 0 = (line ++ carriageReturn :: rest)[0]?.getD 0 := by
    rw [← h, Vector.getElem?_toList]
    rfl
  rw [hfirst]
  cases line with
  | nil => exact ⟨fun hne => absurd rfl hne, fun hne => absurd rfl hne⟩
  | cons b line =>
    exact ⟨fun _ => List.cons_ne_nil b line, fun _ => (List.ne_of_not_mem_cons hcr).symm⟩

theorem answer_eq (env : Surroundings σ) (context : InterruptCpuStatus)
    (hline : t.shell.lineBuffer.toList = line ++ carriageReturn :: rest)
    (hcr : carriageReturn ∉ line) (hne : commandNamed line ≠ some .time) (hon : t.console.On fb)
    (hf : fb.Fits) :
    ∃ console, console.On fb ∧ ∀ wait fuel, t.answer env wait fuel context =
      (send env.lineStatus wait t.port
        (replyText env t.heap context t.shell.terminalRunning line)).map fun port =>
          { t with port := port, console := console } := by
  cases hfunc : commandNamed line with
  | some func =>
    have hreply : replyText env t.heap context t.shell.terminalRunning line =
        commandText env t.heap context func := by
      rw [replyText, hfunc]
    have htime : func ≠ .time := fun h => hne (h ▸ hfunc)
    obtain ⟨console, hconsole, hperform⟩ := perform_eq htime hon hf
    refine ⟨console, hconsole, fun wait fuel => ?_⟩
    rw [answer, findCommand_eq hline, hfunc, hreply]
    exact hperform wait fuel
  | none =>
    refine ⟨t.console, hon, fun wait fuel => ?_⟩
    have hreply : replyText env t.heap context t.shell.terminalRunning line =
        if t.shell.terminalRunning ∧ line ≠ [] then literal "Unkown Command.\n" else [] := by
      rw [replyText, hfunc]
    have hsend := lines_send (.cons unknownCommand_lineText .nil) env.lineStatus wait t.port
    rw [List.flatten_cons, List.flatten_nil, List.append_nil] at hsend
    have hiff := and_congr_right (a := t.shell.terminalRunning = true)
      fun _ => lineBuffer_first hline hcr
    rw [answer, findCommand_eq hline, hfunc, hreply]
    dsimp only
    by_cases hsays : t.shell.terminalRunning ∧ line ≠ []
    · rw [if_pos hsays, if_pos (hiff.2 hsays), hsend, bind_port]
    · rw [if_neg hsays, if_neg (mt hiff.1 hsays)]
      rfl

theorem exact_memset {s : Shell} {line : List (BitVec 8)} (h : s.Exact line) :
    ∃ buf, s.memset 0 s.bufferIndex.toNat = .ok { s with lineBuffer := buf } ∧
      buf.toList = List.replicate 255 0 := by
  have hl := h.holds.length_le
  have hfit : 0 + line.length ≤ 255 := (Nat.zero_add _).symm ▸ hl
  obtain ⟨buf, hm, hb⟩ := Shell.memset_spec (s := s) line.length hfit
  refine ⟨buf, ?_, ?_⟩
  · rw [h.index, hm]
  · apply List.ext_getElem?
    intro i
    rw [Vector.getElem?_toList, hb i, ← Vector.getElem?_toList, h.contents,
      List.getElem?_replicate]
    by_cases hi : i < line.length
    · rw [if_pos ⟨Nat.zero_le i, by omega⟩, if_pos (by omega)]
    · rw [if_neg (by omega), List.getElem?_append_right (by omega), List.getElem?_replicate]
      congr 1
      rw [eq_iff_iff]
      omega

/-- A line is answered, and a new one begins behind the prompt. -/
theorem enter_eq (env : Surroundings σ) (context : InterruptCpuStatus)
    (h : t.shell.Exact (line ++ [carriageReturn])) (hcr : carriageReturn ∉ line)
    (hne : commandNamed line ≠ some .time) (hon : t.console.On fb) (hf : fb.Fits) :
    ∃ t₁ : Terminal σ, t₁.shell.terminalRunning = true ∧ t₁.shell.Exact [] ∧ t₁.console.On fb ∧
      t₁.heap = t.heap ∧ ∀ wait fuel, t.enter env wait fuel context =
        (send env.lineStatus wait t.port
          (replyText env t.heap context t.shell.terminalRunning line ++ literal prompt)).map
            fun port => { t₁ with port := port } := by
  have hline : t.shell.lineBuffer.toList = line ++ carriageReturn ::
      List.replicate (255 - (line ++ [carriageReturn]).length) 0 := by
    rw [h.contents, List.append_assoc]
    rfl
  obtain ⟨console, hconsole, hanswer⟩ := answer_eq env context hline hcr hne hon hf
  obtain ⟨buf, hmemset, hbuf⟩ := exact_memset h
  refine ⟨⟨{ t.shell with lineBuffer := buf, bufferIndex := 0, terminalRunning := true }, t.port,
    console, t.heap⟩, rfl, ⟨rfl, hbuf⟩, hconsole, rfl, fun wait fuel => ?_⟩
  rw [enter, hanswer, send_append]
  cases send env.lineStatus wait t.port
    (replyText env t.heap context t.shell.terminalRunning line) with
  | error e => rfl
  | ok port =>
    change (t.shell.memset 0 t.shell.bufferIndex.toNat >>= fun shell =>
      port.serialWriteString env.lineStatus (cString prompt) wait 256 >>= fun port => _) =
      (send env.lineStatus wait port (literal prompt)).map _
    rw [hmemset, bind_of_ok rfl, serialWriteString_eq (by decide) (by decide), bind_port]

/-- What the port is sent while the handler takes a byte, when it has taken `pre` before. -/
def spoken (env : Surroundings σ) (heap : Heap σ) (pre : List (BitVec 8))
    (call : InterruptCpuStatus × BitVec 8) : List (BitVec 8) :=
  if call.2 ≠ carriageReturn ∧ ¬ pre.contains carriageReturn then []
  else if call.2 = backspace then if edited pre = [] then [] else ioBytes backspace
  else ioBytes call.2 ++
    if call.2 = carriageReturn then
      (replyText env heap call.1 (pre.contains carriageReturn) (edited pre) ++
        literal prompt).flatMap ioBytes
    else []

/-- All that the port is sent from there on. -/
def transcript (env : Surroundings σ) (heap : Heap σ) :
    List (BitVec 8) → List (InterruptCpuStatus × BitVec 8) → List (BitVec 8)
  | _, [] => []
  | pre, call :: calls =>
    spoken env heap pre call ++ transcript env heap (pre ++ [call.2]) calls

theorem after_character {s : Shell} (hr : carriageReturn ∈ bytes) (hb : b ≠ carriageReturn)
    (hrun : s.terminalRunning = true)
    (hh : s.Holds (if b = backspace then (edited bytes).dropLast else edited bytes ++ [b])) :
    s.After (bytes ++ [b]) := by
  refine ⟨?_, ?_⟩
  · rw [hrun, decide_eq_true (List.mem_append_left _ hr)]
  · rw [edited_concat hr hb]
    exact hh

/-- What one call of the handler does: the port is sent the echo at once, and then a text. -/
structure Step (env : Surroundings σ) (fb : Framebuffer) (bytes : List (BitVec 8))
    (call : InterruptCpuStatus × BitVec 8) (t t₁ : Terminal σ) (echo text : List (BitVec 8)) :
    Prop where
  after : t₁.shell.After (bytes ++ [call.2])
  on : t₁.console.On fb
  heap : t₁.heap = t.heap
  spoken : spoken env t.heap bytes call = echo ++ text.flatMap ioBytes
  eq : ∀ wait fuel, t.rs232Irq env wait fuel call.1 call.2 =
    (send env.lineStatus wait { t.port with written := t.port.written ++ echo } text).map
      fun port => { t₁ with port := port }

section Steps
variable {bytes : List (BitVec 8)} {b : BitVec 8}

theorem step_return (h : t.shell.After bytes) (hl : (edited bytes).length < 255)
    (hne : commandNamed (edited bytes) ≠ some .time) (hon : t.console.On fb) (hf : fb.Fits) :
    ∃ t₁ echo text, Step env fb bytes (context, carriageReturn) t t₁ echo text := by
  have hother : carriageReturn ≠ backspace := by decide
  have hexact : Shell.Exact { t.shell with
      lineBuffer := t.shell.lineBuffer.set (edited bytes).length carriageReturn hl
      bufferIndex := t.shell.bufferIndex + 1 } (edited bytes ++ [carriageReturn]) :=
    h.holds.exact_of_store hl carriageReturn rfl rfl
  obtain ⟨t₁, hrun, hempty, hconsole, hheap, henter⟩ := enter_eq env context (t := { t with
      port := t.port.serialWritebUnsafeNonblocking carriageReturn
      shell := { t.shell with
        lineBuffer := t.shell.lineBuffer.set (edited bytes).length carriageReturn hl
        bufferIndex := t.shell.bufferIndex + 1 } })
    hexact (carriageReturn_not_mem_edited bytes) hne hon hf
  refine ⟨t₁, ioBytes carriageReturn, replyText env t.heap context t.shell.terminalRunning
    (edited bytes) ++ literal prompt, ⟨?_, ?_⟩, hconsole, hheap, ?_, fun wait fuel => ?_⟩
  · rw [hrun, decide_eq_true (List.mem_append_right _ List.mem_cons_self)]
  · rw [edited_concat_return]
    exact hempty.holds
  · rw [spoken, if_neg (fun h => h.1 rfl), if_neg hother, if_pos rfl, List.contains_eq_mem,
      ← h.running]
  · rw [rs232Irq, if_neg (fun h => h.1 rfl), if_neg hother, h.holds.index,
      Shell.store_of_lt _ _ hl, bind_of_ok rfl, if_pos rfl]
    exact henter wait fuel

theorem step_ignored (h : t.shell.After bytes) (hb : b ≠ carriageReturn)
    (hr : carriageReturn ∉ bytes) (hon : t.console.On fb) :
    Step env fb bytes (context, b) t t [] [] := by
  have hidle : carriageReturn ∉ bytes ++ [b] :=
    List.not_mem_append hr fun hmem => hb (List.mem_singleton.1 hmem).symm
  have hrun : ¬ t.shell.terminalRunning = true := by
    rw [h.running]
    exact fun hmem => hr (of_decide_eq_true hmem)
  refine ⟨⟨?_, ?_⟩, hon, rfl, if_pos ⟨hb, mt List.contains_iff_mem.1 hr⟩,
    fun wait fuel => ?_⟩
  · rw [h.running, decide_eq_false hr, decide_eq_false hidle]
  · rw [edited_of_idle hidle, ← edited_of_idle hr]
    exact h.holds
  · rw [rs232Irq, if_pos ⟨hb, hrun⟩, List.append_nil]
    rfl

theorem step_erased (h : t.shell.After bytes) (hl : (edited bytes).length < 255)
    (hr : carriageReturn ∈ bytes) (hon : t.console.On fb) :
    ∃ t₁ echo, Step env fb bytes (context, backspace) t t₁ echo [] := by
  have hne : backspace ≠ carriageReturn := by decide
  have hrun : t.shell.terminalRunning = true := by
    rw [h.running]
    exact decide_eq_true hr
  have hgo : ¬ (backspace ≠ carriageReturn ∧ ¬ t.shell.terminalRunning) := fun hn => hn.2 hrun
  have hspoken : spoken env t.heap bytes (context, backspace) =
      if edited bytes = [] then [] else ioBytes backspace := by
    rw [spoken, if_neg (fun hn => hn.2 (List.contains_iff_mem.2 hr)), if_pos rfl]
  by_cases hempty : edited bytes = []
  · have hindex : t.shell.bufferIndex = 0 := by
      apply BitVec.eq_of_toNat_eq
      rw [h.holds.index, hempty]
      rfl
    refine ⟨t, [], after_character hr hne hrun ?_, hon, rfl, ?_, fun wait fuel => ?_⟩
    · have hholds := h.holds
      rw [hempty] at hholds
      rw [if_pos rfl, hempty]
      exact hholds
    · rw [hspoken, if_pos hempty]
      rfl
    · rw [rs232Irq, if_neg hgo, if_pos rfl, if_pos hindex, List.append_nil]
      rfl
  · have hindex : t.shell.bufferIndex ≠ 0 := by
      intro hzero
      have hlen := h.holds.index
      rw [hzero] at hlen
      exact hempty (List.length_eq_zero_iff.1 hlen.symm)
    refine ⟨{ t with shell := { t.shell with
      lineBuffer := t.shell.lineBuffer.set (edited bytes).length 0 hl
      bufferIndex := t.shell.bufferIndex - 1 } }, ioBytes backspace,
      after_character hr hne hrun ?_, hon, rfl, ?_, fun wait fuel => ?_⟩
    · rw [if_pos rfl]
      exact h.holds.backspaced hempty hl rfl rfl
    · rw [hspoken, if_neg hempty]
      exact (List.append_nil _).symm
    · rw [rs232Irq, if_neg hgo, if_pos rfl, if_neg hindex, h.holds.index,
        Shell.store_of_lt _ _ hl]
      rfl

theorem step_typed (h : t.shell.After bytes) (hl : (edited bytes).length < 255)
    (hr : carriageReturn ∈ bytes) (hb : b ≠ carriageReturn) (hb' : b ≠ backspace)
    (hon : t.console.On fb) :
    ∃ t₁ echo, Step env fb bytes (context, b) t t₁ echo [] := by
  have hrun : t.shell.terminalRunning = true := by
    rw [h.running]
    exact decide_eq_true hr
  have hgo : ¬ (b ≠ carriageReturn ∧ ¬ t.shell.terminalRunning) := fun hn => hn.2 hrun
  refine ⟨{ t with shell := { t.shell with
    lineBuffer := t.shell.lineBuffer.set (edited bytes).length b hl
    bufferIndex := t.shell.bufferIndex + 1 } }, ioBytes b, after_character hr hb hrun ?_, hon, rfl,
    ?_, fun wait fuel => ?_⟩
  · rw [if_neg hb']
    exact (h.holds.exact_of_store hl b rfl rfl).holds
  · rw [spoken, if_neg (fun hn => hn.2 (List.contains_iff_mem.2 hr)), if_neg hb', if_neg hb]
    rfl
  · rw [rs232Irq, if_neg hgo, if_neg hb', h.holds.index, Shell.store_of_lt _ _ hl, bind_of_ok rfl,
      if_neg hb]
    rfl

/-- The step lemma of the handler: no byte but a carriage return behind `time` holds it up. -/
theorem step (env : Surroundings σ) (context : InterruptCpuStatus) (h : t.shell.After bytes)
    (hl : (edited bytes).length < 255)
    (hne : b = carriageReturn → commandNamed (edited bytes) ≠ some .time)
    (hon : t.console.On fb) (hf : fb.Fits) :
    ∃ t₁ echo text, Step env fb bytes (context, b) t t₁ echo text := by
  by_cases hb : b = carriageReturn
  · subst hb
    exact step_return h hl (hne rfl) hon hf
  · by_cases hr : carriageReturn ∈ bytes
    · by_cases hb' : b = backspace
      · subst hb'
        obtain ⟨t₁, echo, hstep⟩ := step_erased h hl hr hon
        exact ⟨t₁, echo, [], hstep⟩
      · obtain ⟨t₁, echo, hstep⟩ := step_typed h hl hr hb hb' hon
        exact ⟨t₁, echo, [], hstep⟩
    · exact ⟨t, [], [], step_ignored h hb hr hon⟩

end Steps

end Terminal

end AdaOS.Printf
