import AdaOS.ConsoleMirror
import AdaOS.Interrupts
import AdaOS.PrintfPlain

namespace AdaOS.Printf
set_option autoImplicit true

open Traced

/-- The calls of `print_cpu_status`, which `print_cpu_status_interrupt` makes too. -/
def statusLines (context : InterruptCpuStatus) : List (String × List Arg) :=
  [("RAX: %016llx  RBX: %016llx\n", [.ofWord context.rax, .ofWord context.rbx]),
    ("RCX: %016llx  RDX: %016llx\n", [.ofWord context.rcx, .ofWord context.rdx]),
    ("RSI: %016llx  RDI: %016llx\n", [.ofWord context.rsi, .ofWord context.rdi]),
    ("RBP: %016llx\n", [.ofWord context.rbp]),
    ("R8:  %016llx  R9:  %016llx\n", [.ofWord context.r8, .ofWord context.r9]),
    ("R10: %016llx  R11: %016llx\n", [.ofWord context.r10, .ofWord context.r11]),
    ("R12: %016llx  R13: %016llx\n", [.ofWord context.r12, .ofWord context.r13]),
    ("R14: %016llx  R15: %016llx\n", [.ofWord context.r14, .ofWord context.r15]),
    ("RIP: %016llx  CS:  %016llx\n", [.ofWord context.iretRip, .ofWord context.iretCs]),
    ("RSP: %016llx  SS:  %016llx\n", [.ofWord context.iretRsp, .ofWord context.iretSs]),
    ("RFLAGS: %016llx\n", [.ofWord context.iretFlags])]

/-- Calls of `serial_printf_`, one after the other. -/
def serialPrintLines (lineStatus : Nat → BitVec 8) (wait : Nat) (port : Com1)
    (lines : List (String × List Arg)) : Except Fault Com1 :=
  lines.foldlM (fun port line => do
    let (port, _) ← serialPrintf lineStatus wait port (stringLiteral line.1) line.2
    .ok port) port

/-- Calls of `printf_`, one after the other. -/
def printLines (font : Nat → BitVec 64) (c : Console) (lines : List (String × List Arg)) :
    Except Fault Console :=
  lines.foldlM (fun c line => do
    let (c, _) ← printf font c (stringLiteral line.1) line.2
    .ok c) c

def printCpuStatus (lineStatus : Nat → BitVec 8) (wait : Nat) (port : Com1)
    (context : InterruptCpuStatus) : Except Fault Com1 :=
  serialPrintLines lineStatus wait port (statusLines context)

/-- The first call of `print_cpu_status_interrupt`. -/
def vectorLine (context : InterruptCpuStatus) : String × List Arg :=
  ("Vector: %llu  Error Code: %016llx\n---\n",
    [.ofWord context.vectorNumber, .ofWord context.errorCode])

def printCpuStatusInterrupt (font : Nat → BitVec 64) (c : Console)
    (context : InterruptCpuStatus) : Except Fault Console :=
  printLines font c (vectorLine context :: statusLines context)

def hex16 (x : BitVec 64) : List (BitVec 8) := zeroed 16 (standardDigits false 16 x.toNat)

/-- The registers of a status under their labels, line by line. -/
def statusRows (context : InterruptCpuStatus) : List (List (String × BitVec 64)) :=
  [[("RAX: ", context.rax), ("  RBX: ", context.rbx)],
    [("RCX: ", context.rcx), ("  RDX: ", context.rdx)],
    [("RSI: ", context.rsi), ("  RDI: ", context.rdi)],
    [("RBP: ", context.rbp)],
    [("R8:  ", context.r8), ("  R9:  ", context.r9)],
    [("R10: ", context.r10), ("  R11: ", context.r11)],
    [("R12: ", context.r12), ("  R13: ", context.r13)],
    [("R14: ", context.r14), ("  R15: ", context.r15)],
    [("RIP: ", context.iretRip), ("  CS:  ", context.iretCs)],
    [("RSP: ", context.iretRsp), ("  SS:  ", context.iretSs)],
    [("RFLAGS: ", context.iretFlags)]]

def fieldText (field : String × BitVec 64) : List (BitVec 8) := literal field.1 ++ hex16 field.2

def rowText (row : List (String × BitVec 64)) : List (BitVec 8) := row.flatMap fieldText ++ [0x0a]

/-- What `print_cpu_status` prints. -/
def statusText (context : InterruptCpuStatus) : List (BitVec 8) :=
  (statusRows context).flatMap rowText

def rowPieces (labels : List String) : List Piece :=
  labels.flatMap (fun label => (literal label).map .lit ++ [longHex]) ++ [.lit 0x0a]

theorem rowPieces_comesTo (row : List (String × BitVec 64)) :
    ComesTo (rowPieces (row.map Prod.fst)) (row.map fun field => .ofWord field.2)
      (rowText row) := by
  induction row with
  | nil => exact ComesTo.nil.lit 0x0a
  | cons field row ih =>
    have hfield := (ih.arg (text_longHex (.ofWord field.2) _)).lits (literal field.1)
    rw [rowPieces, rowText] at *
    simpa only [List.map_cons, List.flatMap_cons, List.append_assoc, List.cons_append,
      List.nil_append, fieldText, hex16, Arg.ofWord] using hfield

theorem text_row {format : String} {row : List (String × BitVec 64)}
    (hargs : va = row.map fun field => .ofWord field.2)
    (hformat : literal format = render (rowPieces (row.map Prod.fst)))
    (hwf : ∀ p ∈ rowPieces (row.map Prod.fst), p.Wf) :
    text (stringLiteral format) va = emits (rowText row) := by
  rw [stringLiteral, hformat, hargs]
  exact (rowPieces_comesTo row).text_eq hwf []

/-- The fields of a text without its line ends: what stands before each, and 16 digits. -/
def readFields : List String → List (BitVec 8) → List (BitVec 64)
  | [], _ => []
  | label :: labels, t =>
    .ofNat 64 (readNumber 16 ((t.drop (literal label).length).take 16)) ::
      readFields labels (t.drop ((literal label).length + 16))

def unlined (t : List (BitVec 8)) : List (BitVec 8) := t.filter fun b => b ≠ 0x0a ∧ b ≠ 0x0d

theorem length_hex16 (x : BitVec 64) : (hex16 x).length = 16 :=
  length_zeroed (length_standardDigits_le false (by decide) (by decide) x.isLt)

theorem readFields_eq (fields : List (String × BitVec 64)) (rest : List (BitVec 8)) :
    readFields (fields.map Prod.fst) (fields.flatMap fieldText ++ rest) =
      fields.map Prod.snd := by
  induction fields with
  | nil => rfl
  | cons field fields ih =>
    have hnumber : BitVec.ofNat 64 (readNumber 16 (hex16 field.2)) = field.2 := by
      rw [hex16, readNumber_zeroed false (by decide) (by decide), BitVec.ofNat_toNat,
        BitVec.setWidth_eq]
    have htext : (field :: fields).flatMap fieldText ++ rest =
        literal field.1 ++ (hex16 field.2 ++ (fields.flatMap fieldText ++ rest)) := by
      rw [List.flatMap_cons, fieldText, List.append_assoc, List.append_assoc]
    have htake : (hex16 field.2 ++ (fields.flatMap fieldText ++ rest)).take 16 = hex16 field.2 := by
      rw [← length_hex16 field.2, List.take_left]
    have hdrop : (hex16 field.2 ++ (fields.flatMap fieldText ++ rest)).drop 16 =
        fields.flatMap fieldText ++ rest := by
      rw [← length_hex16 field.2, List.drop_left]
    rw [htext, List.map_cons, readFields, List.drop_left, htake, hnumber, ← List.drop_drop,
      List.drop_left, hdrop, ih]
    rfl

/-- The labels of the registers, line by line. -/
def statusLabels : List (List String) :=
  [["RAX: ", "  RBX: "], ["RCX: ", "  RDX: "], ["RSI: ", "  RDI: "], ["RBP: "],
    ["R8:  ", "  R9:  "], ["R10: ", "  R11: "], ["R12: ", "  R13: "], ["R14: ", "  R15: "],
    ["RIP: ", "  CS:  "], ["RSP: ", "  SS:  "], ["RFLAGS: "]]

def registers (context : InterruptCpuStatus) : List (BitVec 64) :=
  [context.rax, context.rbx, context.rcx, context.rdx, context.rsi, context.rdi, context.rbp,
    context.r8, context.r9, context.r10, context.r11, context.r12, context.r13, context.r14,
    context.r15, context.iretRip, context.iretCs, context.iretRsp, context.iretSs,
    context.iretFlags]

theorem statusRows_labels (context : InterruptCpuStatus) :
    (statusRows context).map (List.map Prod.fst) = statusLabels := rfl

theorem statusRows_registers (context : InterruptCpuStatus) :
    (statusRows context).flatten.map Prod.snd = registers context := rfl

theorem statusLabels_shown : ∀ labels ∈ statusLabels,
    (∀ label ∈ labels, ∀ b ∈ literal label, Shown b) ∧
      (labels.map fun label => (literal label).length + 16).sum < 100 := by decide

theorem shown_hex16 (x : BitVec 64) : ∀ b ∈ hex16 x, Shown b :=
  shown_zeroed false (by decide) (by decide) 16 x.toNat

theorem shown_fields {fields : List (String × BitVec 64)}
    (h : ∀ label ∈ fields.map Prod.fst, ∀ b ∈ literal label, Shown b) :
    ∀ b ∈ fields.flatMap fieldText, Shown b := by
  intro b hb
  obtain ⟨field, hfield, hb⟩ := List.mem_flatMap.1 hb
  obtain hb | hb := List.mem_append.1 hb
  · exact h field.1 (List.mem_map_of_mem hfield) b hb
  · exact shown_hex16 field.2 b hb

theorem length_fields (fields : List (String × BitVec 64)) :
    (fields.flatMap fieldText).length =
      ((fields.map Prod.fst).map fun label => (literal label).length + 16).sum := by
  induction fields with
  | nil => rfl
  | cons field fields ih =>
    rw [List.flatMap_cons, List.length_append, ih, fieldText, List.length_append, length_hex16]
    rfl

theorem unlined_shown {t : List (BitVec 8)} (h : ∀ b ∈ t, Shown b) : unlined t = t :=
  List.filter_eq_self.2 fun b hb => decide_eq_true ⟨(h b hb).2.1, (h b hb).2.2.1⟩

theorem unlined_append (t u : List (BitVec 8)) : unlined (t ++ u) = unlined t ++ unlined u :=
  List.filter_append ..

theorem statusRow_shown {context : InterruptCpuStatus} {row : List (String × BitVec 64)}
    (h : row ∈ statusRows context) :
    (∀ b ∈ row.flatMap fieldText, Shown b) ∧ (row.flatMap fieldText).length < 100 := by
  have hlabels : row.map Prod.fst ∈ statusLabels :=
    statusRows_labels context ▸ List.mem_map_of_mem h
  obtain ⟨hshown, hlen⟩ := statusLabels_shown _ hlabels
  exact ⟨shown_fields hshown, (length_fields row).symm ▸ hlen⟩

theorem unlined_rows {rows : List (List (String × BitVec 64))}
    (h : ∀ row ∈ rows, ∀ b ∈ row.flatMap fieldText, Shown b) :
    unlined (rows.flatMap rowText) = rows.flatten.flatMap fieldText := by
  induction rows with
  | nil => rfl
  | cons row rows ih =>
    obtain ⟨hrow, hrows⟩ := List.forall_mem_cons.1 h
    have hend : unlined [0x0a] = [] := by decide
    rw [List.flatMap_cons, unlined_append, ih hrows, rowText, unlined_append, unlined_shown hrow,
      hend, List.append_nil, List.flatten_cons, List.flatMap_append]

theorem readFields_statusText (context : InterruptCpuStatus) :
    readFields statusLabels.flatten (unlined (statusText context)) = registers context := by
  have hread := readFields_eq (statusRows context).flatten []
  rw [List.append_nil, List.map_flatten, statusRows_labels, statusRows_registers] at hread
  rw [statusText, unlined_rows fun row hrow => (statusRow_shown hrow).1, hread]

def LineText (line : String × List Arg) (t : List (BitVec 8)) : Prop :=
  text (stringLiteral line.1) line.2 = emits t ∧ 0 ∉ t ∧ t.length < 2 ^ 64

theorem lines_send {lines : List (String × List Arg)} {ts : List (List (BitVec 8))}
    (h : List.Forall₂ LineText lines ts) (lineStatus : Nat → BitVec 8) (wait : Nat) (port : Com1) :
    serialPrintLines lineStatus wait port lines = send lineStatus wait port ts.flatten := by
  induction h generalizing port with
  | nil => rfl
  | @cons line t lines ts hline _ ih =>
    obtain ⟨htext, h0, hlen⟩ := hline
    rw [serialPrintLines, List.foldlM_cons, serialPrintf_says htext h0 hlen, List.flatten_cons,
      send_append]
    cases send lineStatus wait port t with
    | error e => rfl
    | ok port' => exact ih port'

theorem lines_print {lines : List (String × List Arg)} {ts : List (List (BitVec 8))}
    {fb : Framebuffer} {c : Console} (h : List.Forall₂ LineText lines ts) (hon : c.On fb)
    (hf : fb.Fits) (hs : 128 ≤ fb.stride) (font : Nat → BitVec 64) :
    ∃ d, printLines font c lines = .ok d ∧ c.Prints fb d ts.flatten := by
  induction h generalizing c with
  | nil => exact ⟨c, rfl, .nil hon⟩
  | cons hline _ ih =>
    obtain ⟨htext, h0, hlen⟩ := hline
    obtain ⟨d, hd, hfirst⟩ := printf_says hon hf hs font htext h0 hlen
    obtain ⟨e, he, hrest⟩ := ih hfirst.on
    refine ⟨e, ?_, hfirst.append hrest⟩
    rw [printLines, List.foldlM_cons, hd]
    exact he

theorem row_lineText {format : String} {row : List (String × BitVec 64)}
    (hargs : va = row.map fun field => .ofWord field.2)
    (hformat : literal format = render (rowPieces (row.map Prod.fst)))
    (hwf : ∀ p ∈ rowPieces (row.map Prod.fst), p.Wf)
    (hrow : (∀ b ∈ row.flatMap fieldText, Shown b) ∧ (row.flatMap fieldText).length < 100) :
    LineText (format, va) (rowText row) := by
  refine ⟨text_row hargs hformat hwf, ?_, ?_⟩
  · intro h0
    obtain h0 | h0 := List.mem_append.1 h0
    · exact (hrow.1 0 h0).1 rfl
    · exact absurd (List.mem_singleton.1 h0) (by decide)
  · rw [rowText, List.length_append, List.length_singleton]
    omega

theorem statusLines_text (context : InterruptCpuStatus) :
    List.Forall₂ LineText (statusLines context) ((statusRows context).map rowText) := by
  refine .cons ?_ (.cons ?_ (.cons ?_ (.cons ?_ (.cons ?_ (.cons ?_ (.cons ?_ (.cons ?_ (.cons ?_
    (.cons ?_ (.cons ?_ .nil))))))))))
  all_goals
    apply row_lineText
    · rfl
    · simp only [List.map_cons, List.map_nil]
      decide
    · simp only [List.map_cons, List.map_nil]
      decide
    · refine @statusRow_shown context _ ?_
      simp only [statusRows, List.mem_cons, true_or, or_true]

theorem printCpuStatus_eq (lineStatus : Nat → BitVec 8) (wait : Nat) (port : Com1)
    (context : InterruptCpuStatus) :
    printCpuStatus lineStatus wait port context =
      send lineStatus wait port (statusText context) := by
  rw [printCpuStatus, lines_send (statusLines_text context), statusText, List.flatMap_def]

end AdaOS.Printf
