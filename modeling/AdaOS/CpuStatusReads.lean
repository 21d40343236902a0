import AdaOS.CpuStatus
import AdaOS.InterruptFrames

namespace AdaOS.Printf
set_option autoImplicit true

open Traced StackMachine

/-- What the first call of `print_cpu_status_interrupt` prints. -/
def vectorText (context : InterruptCpuStatus) : List (BitVec 8) :=
  literal "Vector: " ++ (standardDigits false 10 context.vectorNumber.toNat ++
    (literal "  Error Code: " ++ (hex16 context.errorCode ++ literal "\n---\n")))

/-- What `print_cpu_status_interrupt` prints. -/
def interruptText (context : InterruptCpuStatus) : List (BitVec 8) :=
  vectorText context ++ statusText context

def vectorPieces : List Piece :=
  (literal "Vector: ").map .lit ++ (longDecimal :: ((literal "  Error Code: ").map .lit ++
    (longHex :: (literal "\n---\n").map .lit)))

theorem vectorPieces_wf : ∀ p ∈ vectorPieces, p.Wf := by decide

theorem render_vectorPieces :
    render vectorPieces = literal "Vector: %llu  Error Code: %016llx\n---\n" := by decide

theorem vectorLine_text (context : InterruptCpuStatus) :
    LineText (vectorLine context) (vectorText context) := by
  have hend : ComesTo ((literal "\n---\n").map .lit) [] (literal "\n---\n") := by
    have h := ComesTo.nil.lits (literal "\n---\n")
    rwa [List.append_nil, List.append_nil] at h
  have hcode := hend.arg (text_longHex (.ofWord context.errorCode) [])
  have hnumber := (hcode.lits (literal "  Error Code: ")).arg
    (text_longDecimal (.ofWord context.vectorNumber) [.ofWord context.errorCode])
  have hall := hnumber.lits (literal "Vector: ")
  refine ⟨?_, ?_, ?_⟩
  · rw [vectorLine, stringLiteral, ← render_vectorPieces]
    exact hall.text_eq vectorPieces_wf []
  · intro h0
    simp only [vectorText, List.mem_append] at h0
    obtain h0 | h0 | h0 | h0 | h0 := h0
    · exact absurd h0 (by decide)
    · exact (shown_standardDigits false (by decide) (by decide) _ 0 h0).1 rfl
    · exact absurd h0 (by decide)
    · exact (shown_hex16 _ 0 h0).1 rfl
    · exact absurd h0 (by decide)
  · have hdigits : (standardDigits false 10 context.vectorNumber.toNat).length ≤ 20 :=
      length_standardDigits_le false (by decide) (by decide)
        (Nat.lt_trans context.vectorNumber.isLt (by decide))
    have hvector : (literal "Vector: ").length = 8 := by decide
    have hlabel : (literal "  Error Code: ").length = 14 := by decide
    have hdashes : (literal "\n---\n").length = 5 := by decide
    simp only [vectorText, List.length_append, length_hex16, hvector, hlabel, hdashes]
    omega

theorem isDigit_of_mem {n : Nat} : ∀ b ∈ standardDigits false 10 n, isDigit b = true := by
  have hall : ∀ d < 10, isDigit (digitChar false d) = true := by decide
  intro b hb
  rw [standardDigits] at hb
  split at hb
  · rw [List.mem_singleton.1 hb]
    decide
  · obtain ⟨d, hd, rfl⟩ := List.mem_map.1 (List.mem_reverse.1 hb)
    exact hall d (Nat.digits_lt_base (by decide) hd)

/-- What stands before the fields of a text of `print_cpu_status_interrupt`, when the line ends
are left out. -/
def interruptLabels : List String :=
  "  Error Code: " :: "---RAX: " :: statusLabels.flatten.tail

def interruptFields (context : InterruptCpuStatus) : List (String × BitVec 64) :=
  ("  Error Code: ", context.errorCode) :: ("---RAX: ", context.rax) ::
    (statusRows context).flatten.tail

theorem interruptFields_labels (context : InterruptCpuStatus) :
    (interruptFields context).map Prod.fst = interruptLabels := rfl

theorem interruptFields_values (context : InterruptCpuStatus) :
    (interruptFields context).map Prod.snd = context.errorCode :: registers context := rfl

/-- The vector, the error code and the registers that a text of `print_cpu_status_interrupt`
shows. -/
def readInterruptText (t : List (BitVec 8)) : BitVec 64 × List (BitVec 64) :=
  let t := (unlined t).drop (literal "Vector: ").length
  (.ofNat 64 (readNumber 10 (t.takeWhile isDigit)),
    readFields interruptLabels (t.dropWhile isDigit))

theorem unlined_interruptText (context : InterruptCpuStatus) :
    unlined (interruptText context) =
      literal "Vector: " ++ (standardDigits false 10 context.vectorNumber.toNat ++
        (interruptFields context).flatMap fieldText) := by
  have hvector : unlined (literal "Vector: ") = literal "Vector: " := by decide
  have hlabel : unlined (literal "  Error Code: ") = literal "  Error Code: " := by decide
  have hdashes : unlined (literal "\n---\n") = literal "---" := by decide
  have hrax : literal "---RAX: " = literal "---" ++ literal "RAX: " := by decide
  have hrows : (statusRows context).flatten =
      ("RAX: ", context.rax) :: (statusRows context).flatten.tail := rfl
  have hstatus := unlined_rows fun row hrow => (@statusRow_shown context row hrow).1
  have hdigits := unlined_shown (shown_standardDigits false (by decide : 1 < 10) (by decide)
    context.vectorNumber.toNat)
  rw [hrows, List.flatMap_cons, fieldText] at hstatus
  rw [interruptText, vectorText, statusText]
  simp only [unlined_append, hvector, hlabel, hdashes, hstatus, unlined_shown (shown_hex16 _),
    hdigits, interruptFields, List.flatMap_cons, fieldText, hrax, List.append_assoc]

theorem readInterruptText_eq (context : InterruptCpuStatus) :
    readInterruptText (interruptText context) =
      (context.vectorNumber, context.errorCode :: registers context) := by
  have hspace : (interruptFields context).flatMap fieldText =
      ch ' ' :: ((interruptFields context).flatMap fieldText).tail := by
    have hlabel : literal "  Error Code: " = ch ' ' :: literal " Error Code: " := by decide
    rw [interruptFields, List.flatMap_cons, fieldText, hlabel]
    rfl
  have hstop : ¬ isDigit (ch ' ') = true := by decide
  have hfields := readFields_eq (interruptFields context) []
  rw [List.append_nil, interruptFields_labels, interruptFields_values] at hfields
  have hnumber := readNumber_zeroed false (by decide : 1 < 10) (by decide) 0
    context.vectorNumber.toNat
  rw [zeroed_zero] at hnumber
  rw [readInterruptText, unlined_interruptText, List.drop_left,
    List.takeWhile_append_of_pos isDigit_of_mem, List.dropWhile_append_of_pos isDigit_of_mem,
    hspace, List.takeWhile_cons_of_neg hstop,
    List.dropWhile_cons_of_neg hstop, ← hspace, List.append_nil, hnumber, hfields,
    BitVec.ofNat_toNat, BitVec.setWidth_eq]

theorem unlined_wrap (columns x : Nat) {t : List (BitVec 8)} (h : ∀ b ∈ t, b.toNat < 128) :
    unlined (LineWrap.wrap 0x0a 0x0d columns x (mirrored t)) = unlined t := by
  have hall : mirrored t = t := List.filter_eq_self.2 fun b hb => decide_eq_true (h b hb)
  have hsplit : ∀ l : List (BitVec 8), unlined l = (l.filter (· ≠ 0x0a)).filter (· ≠ 0x0d) := by
    intro l
    rw [List.filter_filter]
    apply List.filter_congr
    intro b _
    rw [← Bool.decide_and, decide_eq_decide]
    exact and_comm
  rw [hsplit, LineWrap.filter_wrap, hall, List.filter_filter]
  apply List.filter_congr
  intro b _
  rw [← Bool.decide_and, decide_eq_decide]
  exact ⟨And.right, fun hb => ⟨hb.2, hb⟩⟩

theorem unlined_ioBytes (t : List (BitVec 8)) : unlined (t.flatMap ioBytes) = unlined t := by
  induction t with
  | nil => rfl
  | cons b t ih =>
    rw [List.flatMap_cons, unlined_append, ih, ioBytes]
    split
    · rename_i hend
      have hskip : unlined (b :: t) = unlined t :=
        List.filter_cons_of_neg fun h => by
          obtain ⟨hlf, hcr⟩ := of_decide_eq_true h
          exact hend.elim hlf hcr
      have hnone : unlined [0x0d, 0x0a] = [] := by decide
      rw [hskip, hnone]
      rfl
    · exact (unlined_append [b] t).symm

theorem statusText_ascii (context : InterruptCpuStatus) :
    ∀ b ∈ statusText context, b.toNat < 128 := by
  intro b hb
  obtain ⟨row, hrow, hb⟩ := List.mem_flatMap.1 hb
  obtain hb | hb := List.mem_append.1 hb
  · exact ((statusRow_shown hrow).1 b hb).2.2.2
  · rw [List.mem_singleton.1 hb]
    decide

theorem interruptText_ascii (context : InterruptCpuStatus) :
    ∀ b ∈ interruptText context, b.toNat < 128 := by
  have hvector : ∀ b ∈ literal "Vector: ", b.toNat < 128 := by decide
  have hlabel : ∀ b ∈ literal "  Error Code: ", b.toNat < 128 := by decide
  have hdashes : ∀ b ∈ literal "\n---\n", b.toNat < 128 := by decide
  have hdigits := shown_standardDigits false (by decide : 1 < 10) (by decide)
    context.vectorNumber.toNat
  intro b hb
  simp only [interruptText, vectorText, List.mem_append] at hb
  obtain (hb | hb | hb | hb | hb) | hb := hb
  · exact hvector b hb
  · exact (hdigits b hb).2.2.2
  · exact hlabel b hb
  · exact (shown_hex16 _ b hb).2.2.2
  · exact hdashes b hb
  · exact statusText_ascii context b hb

theorem printCpuStatusInterrupt_prints {fb : Framebuffer} {c : Console} (h : c.On fb)
    (hf : fb.Fits) (hs : 128 ≤ fb.stride) (font : Nat → BitVec 64) (context : InterruptCpuStatus) :
    ∃ d, printCpuStatusInterrupt font c context = .ok d ∧
      c.Prints fb d (interruptText context) := by
  have hlines := List.Forall₂.cons (vectorLine_text context) (statusLines_text context)
  obtain ⟨d, hd, hprints⟩ := lines_print hlines h hf hs font
  refine ⟨d, hd, ?_⟩
  rw [interruptText, statusText, List.flatMap_def]
  exact hprints

/-- The registers of an interrupted program, as the dumps show them. -/
def contextRegisters (c : Context) : List (BitVec 64) :=
  [c.reg .rax, c.reg .rbx, c.reg .rcx, c.reg .rdx, c.reg .rsi, c.reg .rdi, c.reg .rbp, c.reg .r8,
    c.reg .r9, c.reg .r10, c.reg .r11, c.reg .r12, c.reg .r13, c.reg .r14, c.reg .r15, c.rip, c.cs,
    c.rsp, c.ss, c.rflags]

/-- The status that `exception_handler` is called with. -/
def stubStatus (c : Context) (vector : BitVec 8) (stub : List (Instr Reg)) : InterruptCpuStatus :=
  readStatus (c.atCall vector stub).mem ((c.atCall vector stub).reg .rdi)

theorem stubStatus_eq (c : Context) (h : (vector, stub) ∈ stubs) (hv : vector ∉ shiftedVectors) :
    (stubStatus c vector stub).vectorNumber = vector.setWidth 64 ∧
      (stubStatus c vector stub).errorCode = (if hasErrorCode vector then c.errorCode else 0) ∧
      registers (stubStatus c vector stub) = contextRegisters c := by
  obtain ⟨he, hcode⟩ | ⟨he, hcode⟩ := stubs_macro _ h
  · have hs : stub = stubPushing [0, vector.setWidth 64] := he
    have hw : c.pushed vector ++ [0, vector.setWidth 64] =
        [c.ss, c.rsp, c.rflags, c.cs, c.rip, 0, vector.setWidth 64] := by
      rw [Context.pushed, hcode.2 hv]
      rfl
    rw [stubStatus, hs, Context.readStatus_atCall hw, hcode.2 hv]
    exact ⟨rfl, rfl, rfl⟩
  · have hs : stub = stubPushing [vector.setWidth 64] := he
    have hw : c.pushed vector ++ [vector.setWidth 64] =
        [c.ss, c.rsp, c.rflags, c.cs, c.rip, c.errorCode, vector.setWidth 64] := by
      rw [Context.pushed, hcode.2 hv]
      rfl
    rw [stubStatus, hs, Context.readStatus_atCall hw, hcode.2 hv]
    exact ⟨rfl, rfl, rfl⟩

/-- The dump of a fault shows the registers of the interrupted program, whatever stands on the
screen: the serial port has a text from which they read back. -/
theorem interrupt_dump_reads {fb : Framebuffer} {console : Console} (c : Context)
    (h : (vector, stub) ∈ stubs) (hv : vector ∉ shiftedVectors) (hon : console.On fb)
    (hf : fb.Fits) (hs : 128 ≤ fb.stride) (font : Nat → BitVec 64) :
    ∃ d sent, printCpuStatusInterrupt font console (stubStatus c vector stub) = .ok d ∧ d.On fb ∧
      d.sent = console.sent ++ sent ∧
      readInterruptText sent = (vector.setWidth 64,
        (if hasErrorCode vector then c.errorCode else 0) :: contextRegisters c) := by
  obtain ⟨hvector, hcode, hregisters⟩ := stubStatus_eq c h hv
  obtain ⟨d, hd, hprints⟩ :=
    printCpuStatusInterrupt_prints hon hf hs font (stubStatus c vector stub)
  refine ⟨d, _, hd, hprints.on, hprints.sent, ?_⟩
  have hread := readInterruptText_eq (stubStatus c vector stub)
  rw [hvector, hcode, hregisters] at hread
  rw [← hread, readInterruptText, readInterruptText, unlined_wrap _ _ (interruptText_ascii _)]

/-- A write to a page that is not mapped. -/
def pageFaultContext : Context := { idleContext with reg := fun _ => 7, errorCode := 2 }

theorem interrupt_dump_reads_pageFault :
    ∃ d sent, printCpuStatusInterrupt (fun _ => 1) (Console.boot oneRow)
        (stubStatus pageFaultContext 14 (err 14)) = .ok d ∧ d.On oneRow ∧
      d.sent = (Console.boot oneRow).sent ++ sent ∧
      readInterruptText sent = (14, 2 :: contextRegisters pageFaultContext) :=
  interrupt_dump_reads pageFaultContext (by decide) (by decide)
    (Console.boot_on oneRow_fits) oneRow_fits (by decide) _

/-- The command `reg` shows them too, however long the port makes it wait. -/
theorem reg_dump_reads (c : Context) (h : (vector, stub) ∈ stubs) (hv : vector ∉ shiftedVectors)
    {lineStatus : Nat → BitVec 8} (hready : Ready lineStatus) (port : Com1) :
    ∃ wait port' sent, printCpuStatus lineStatus wait port (stubStatus c vector stub) = .ok port' ∧
      port'.written = port.written ++ sent ∧
      readFields statusLabels.flatten (unlined sent) = contextRegisters c := by
  obtain ⟨_, _, hregisters⟩ := stubStatus_eq c h hv
  obtain ⟨wait, port', hsend, hwritten⟩ :=
    send_ready hready (statusText (stubStatus c vector stub)) port
  refine ⟨wait, port', _, ?_, hwritten, ?_⟩
  · rw [printCpuStatus_eq, hsend]
  · rw [unlined_ioBytes, readFields_statusText, hregisters]

theorem reg_dump_reads_breakpoint :
    ∃ wait port' sent,
      printCpuStatus (fun _ => 0x20) wait ⟨0, []⟩ (stubStatus idleContext 3 (noErr 3)) =
        .ok port' ∧
      port'.written = sent ∧
      readFields statusLabels.flatten (unlined sent) = contextRegisters idleContext :=
  reg_dump_reads idleContext (by decide) (by decide) ready_always ⟨0, []⟩

end AdaOS.Printf
