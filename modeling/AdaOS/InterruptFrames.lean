import AdaOS.Interrupts

namespace AdaOS
set_option autoImplicit true
open StackMachine

/-- The general registers in the order in which the stubs push them. -/
def generalRegs : List Reg :=
  [.rax, .rbx, .rcx, .rdx, .rsi, .rdi, .rbp, .r8, .r9, .r10, .r11, .r12, .r13, .r14, .r15]

theorem mem_generalRegs (r : Reg) : r ∈ generalRegs := by
  cases r <;> decide

theorem exceptionHandlerAsm_eq :
    exceptionHandlerAsm = around .rdi generalRegs ++ [.addRsp 16] := rfl

/-- A stub that pushes `words` before it jumps to the common code. -/
def stubPushing (words : List (BitVec 64)) : List (Instr Reg) :=
  words.map .pushImm ++ exceptionHandlerAsm

variable {c : Context} {vector : BitVec 8} {words : List (BitVec 64)}
  {exceptionHandler : State Reg → State Reg}

/-- The state in which such a stub reaches the common code. -/
def Context.entered (c : Context) (vector : BitVec 8) (words : List (BitVec 64)) : State Reg :=
  State.pushAll ⟨c.reg, c.stackTop, c.mem⟩ (c.pushed vector ++ words)

theorem Context.entered_eq (c : Context) (vector : BitVec 8) (words : List (BitVec 64)) :
    (c.deliver vector).pushAll words = c.entered vector words :=
  (State.pushAll_append _ _ _).symm

theorem Context.entered_reg (c : Context) (vector : BitVec 8) (words : List (BitVec 64)) :
    (c.entered vector words).reg = c.reg := State.pushAll_reg _ _

theorem stubPushing_takeWhile (words : List (BitVec 64)) :
    (stubPushing words).takeWhile (· != .call) =
      words.map .pushImm ++ (generalRegs.map .push ++ [.movRsp .rdi]) := by
  rw [stubPushing, List.takeWhile_append_of_pos]
  · rfl
  · intro i hi
    obtain ⟨x, _, rfl⟩ := List.mem_map.1 hi
    rfl

theorem Context.atCall_eq (c : Context) (vector : BitVec 8) (words : List (BitVec 64)) :
    c.atCall vector (stubPushing words) = (c.entered vector words).saved .rdi generalRegs := by
  rw [Context.atCall, stubPushing_takeWhile, run_append, run_pushImm, c.entered_eq, run_append,
    run_push]
  rfl

theorem Context.atIretq_eq (c : Context) (vector : BitVec 8) (words : List (BitVec 64))
    (exceptionHandler : State Reg → State Reg) :
    c.atIretq vector (stubPushing words) exceptionHandler =
      exec exceptionHandler (run exceptionHandler (c.entered vector words)
        (around .rdi generalRegs)) (.addRsp 16) := by
  rw [Context.atIretq, stubPushing, run_append, run_pushImm, c.entered_eq, exceptionHandlerAsm_eq,
    run_append]
  rfl

/-- The handler returns with the stack pointer and the frame as they were. -/
def FrameKept (s s' : State Reg) : Prop :=
  s'.rsp = s.rsp ∧ ∀ i < 22, s'.mem (slot s.rsp i) = s.mem (slot s.rsp i)

theorem Context.atIretq_restores
    (hk : FrameKept (c.atCall vector (stubPushing words))
      (exceptionHandler (c.atCall vector (stubPushing words)))) :
    (c.atIretq vector (stubPushing words) exceptionHandler).rsp =
        slot (c.entered vector words).rsp 2 ∧
      ∀ r, (c.atIretq vector (stubPushing words) exceptionHandler).reg r = c.reg r := by
  rw [c.atCall_eq] at hk
  rw [c.atIretq_eq]
  have hd : generalRegs.Nodup := by decide
  have hr := around_restores exceptionHandler (c.entered vector words) .rdi hd (by decide) hk.1
    fun i hi => hk.2 i (Nat.lt_trans hi (by decide))
  constructor
  · exact congrArg (· + 16) hr.1
  · intro r
    have hreg := hr.2 r (mem_generalRegs r)
    rw [c.entered_reg] at hreg
    exact hreg

theorem Context.slot_ripSlot (c : Context) (vector : BitVec 8) (words : List (BitVec 64)) :
    slot c.ripSlot 5 =
      slot (c.entered vector words).rsp (c.pushed vector ++ words).length := by
  have he := State.slot_pushAll ⟨c.reg, c.stackTop, c.mem⟩ (c.pushed vector ++ words) 0
  have hs : slot c.ripSlot 5 = c.stackTop := BitVec.sub_add_cancel c.stackTop 40
  rw [hs, ← slot_zero c.stackTop]
  exact he.symm

theorem Context.exit_iff (c : Context) (vector : BitVec 8) (hl : words.length ≤ 2) :
    slot (c.entered vector words).rsp 2 = c.ripSlot ↔
      (c.pushed vector ++ words).length = 7 := by
  have hs := c.slot_ripSlot vector words
  have hp : (c.pushed vector).length ≤ 6 := by
    rw [Context.pushed]
    split
    · exact Nat.le_refl 6
    · exact Nat.le_succ 5
  have hn : (c.pushed vector ++ words).length ≤ 8 := by
    rw [List.length_append]
    omega
  constructor
  · intro he
    rw [← he, slot_slot] at hs
    exact (slot_inj (by decide) (by omega) hs).symm
  · intro he
    rw [he, ← slot_slot _ 2 5] at hs
    exact ((BitVec.add_left_inj _).1 hs).symm

theorem Context.readStatus_atCall
    (hw : c.pushed vector ++ words = [c.ss, c.rsp, c.rflags, c.cs, c.rip, code, number]) :
    readStatus (c.atCall vector (stubPushing words)).mem
        ((c.atCall vector (stubPushing words)).reg .rdi) =
      ⟨c.reg .r15, c.reg .r14, c.reg .r13, c.reg .r12, c.reg .r11, c.reg .r10, c.reg .r9,
        c.reg .r8, c.reg .rbp, c.reg .rdi, c.reg .rsi, c.reg .rdx, c.reg .rcx, c.reg .rbx,
        c.reg .rax, number, code, c.rip, c.cs, c.rflags, c.rsp, c.ss⟩ := by
  have hs : (c.entered vector words).pushAll (generalRegs.map (c.entered vector words).reg) =
      State.pushAll ⟨c.reg, c.stackTop, c.mem⟩
        ([c.ss, c.rsp, c.rflags, c.cs, c.rip, code, number] ++ generalRegs.map c.reg) := by
    rw [c.entered_reg, Context.entered, hw, State.pushAll_append]
  have hword (i : Nat) (hi : i < 22) := State.pushAll_word ⟨c.reg, c.stackTop, c.mem⟩
    ([c.ss, c.rsp, c.rflags, c.cs, c.rip, code, number] ++ generalRegs.map c.reg)
    (show 22 < 2 ^ 61 by decide) (i := i) hi
  rw [c.atCall_eq, State.saved_reg_self, State.saved_mem, State.saved_rsp, hs]
  generalize State.pushAll _ _ = t at hword ⊢
  rw [readStatus]
  congr 1 <;> exact hword _ (by decide)

/-- What the interrupted program and the handler rely on. -/
structure Context.Preserved (c : Context) (vector : BitVec 8) (stub : List (Instr Reg)) :
    Prop where
  vectorNumber : (readStatus (c.atCall vector stub).mem
    ((c.atCall vector stub).reg .rdi)).vectorNumber = vector.setWidth 64
  iretRip : (readStatus (c.atCall vector stub).mem
    ((c.atCall vector stub).reg .rdi)).iretRip = c.rip
  iretCs : (readStatus (c.atCall vector stub).mem ((c.atCall vector stub).reg .rdi)).iretCs = c.cs
  iretFlags : (readStatus (c.atCall vector stub).mem
    ((c.atCall vector stub).reg .rdi)).iretFlags = c.rflags
  iretRsp : (readStatus (c.atCall vector stub).mem
    ((c.atCall vector stub).reg .rdi)).iretRsp = c.rsp
  iretSs : (readStatus (c.atCall vector stub).mem ((c.atCall vector stub).reg .rdi)).iretSs = c.ss
  exit : ∀ exceptionHandler,
    FrameKept (c.atCall vector stub) (exceptionHandler (c.atCall vector stub)) →
      (c.atIretq vector stub exceptionHandler).rsp = c.ripSlot ∧
        ∀ r, (c.atIretq vector stub exceptionHandler).reg r = c.reg r

/-- A stub is right when the processor and it together push two words behind `RIP`. -/
theorem Context.preserved_iff (c : Context) (vector : BitVec 8) (hl : words.length ≤ 1) :
    c.Preserved vector (stubPushing (words ++ [vector.setWidth 64])) ↔
      (c.pushed vector ++ (words ++ [vector.setWidth 64])).length = 7 := by
  have hn : (words ++ [vector.setWidth 64]).length ≤ 2 := by
    rw [List.length_append]
    exact Nat.add_le_add_right hl 1
  have hx := c.exit_iff vector hn
  constructor
  · intro h
    have hk : FrameKept (c.atCall vector (stubPushing (words ++ [vector.setWidth 64])))
        (id (c.atCall vector (stubPushing (words ++ [vector.setWidth 64])))) :=
      ⟨rfl, fun _ _ => rfl⟩
    exact hx.1 ((Context.atIretq_restores hk).1.symm.trans (h.exit id hk).1)
  · intro h
    have hw : ∃ code, c.pushed vector ++ (words ++ [vector.setWidth 64]) =
        [c.ss, c.rsp, c.rflags, c.cs, c.rip, code, vector.setWidth 64] := by
      rw [Context.pushed] at h ⊢
      cases words with
      | nil =>
        split at h
        · rename_i he
          exact ⟨c.errorCode, by rw [if_pos he]; rfl⟩
        · cases h
      | cons x words =>
        obtain rfl := List.length_eq_zero_iff.1 (Nat.le_zero.1 (Nat.le_of_succ_le_succ hl))
        split at h
        · cases h
        · rename_i he
          exact ⟨x, by rw [if_neg he]; rfl⟩
    obtain ⟨code, hw⟩ := hw
    have hf := c.readStatus_atCall hw
    constructor
    · rw [hf]
    · rw [hf]
    · rw [hf]
    · rw [hf]
    · rw [hf]
    · rw [hf]
    · intro exceptionHandler hk
      have hr := c.atIretq_restores hk
      exact ⟨hr.1.trans (hx.2 h), hr.2⟩

/-- The vectors whose stub pushes a word too many or too few. -/
def shiftedVectors : List (BitVec 8) := [21, 29, 0xf6]

theorem stubs_macro : ∀ e ∈ stubs,
    e.2 = noErr (e.1.setWidth 64) ∧ (hasErrorCode e.1 = false ↔ e.1 ∉ shiftedVectors) ∨
      e.2 = err (e.1.setWidth 64) ∧ (hasErrorCode e.1 = true ↔ e.1 ∉ shiftedVectors) := by
  decide

theorem Context.preserved_stub_iff (c : Context) (h : (vector, stub) ∈ stubs) :
    c.Preserved vector stub ↔ vector ∉ shiftedVectors := by
  rcases stubs_macro _ h with ⟨he, hv⟩ | ⟨he, hv⟩
  · have hs : stub = stubPushing ([0] ++ [vector.setWidth 64]) := he
    have hl : [(0 : BitVec 64)].length ≤ 1 := Nat.le_refl 1
    rw [hs, c.preserved_iff vector hl, ← hv, Context.pushed]
    cases hasErrorCode vector with
    | false => exact ⟨fun _ => rfl, fun _ => rfl⟩
    | true => exact ⟨fun hl => (nomatch hl), fun hf => (nomatch hf)⟩
  · have hs : stub = stubPushing ([] ++ [vector.setWidth 64]) := he
    have hl : ([] : List (BitVec 64)).length ≤ 1 := Nat.zero_le 1
    rw [hs, c.preserved_iff vector hl, ← hv, Context.pushed]
    cases hasErrorCode vector with
    | false => exact ⟨fun hl => (nomatch hl), fun hf => (nomatch hf)⟩
    | true => exact ⟨fun _ => rfl, fun _ => rfl⟩

theorem descriptor_offset (isr : BitVec 64) (flags : BitVec 8) :
    (descriptor isr flags).offset = isr := by
  have hlow (x : BitVec 64) : (x &&& 0xFFFF).setWidth 16 = x.setWidth 16 := by
    rw [BitVec.setWidth_and]
    exact BitVec.and_allOnes
  have hhigh (x : BitVec 64) : (x &&& 0xFFFFFFFF).setWidth 32 = x.setWidth 32 := by
    rw [BitVec.setWidth_and]
    exact BitVec.and_allOnes
  apply BitVec.eq_of_getLsbD_eq
  intro i hi
  simp only [IdtEntry.offset, descriptor, hlow, hhigh, BitVec.getLsbD_append,
    BitVec.getLsbD_setWidth, BitVec.getLsbD_ushiftRight]
  by_cases h₁ : i < 16
  · rw [if_pos h₁, decide_eq_true h₁, Bool.true_and]
  · rw [if_neg h₁]
    by_cases h₂ : i - 16 < 16
    · rw [if_pos h₂, decide_eq_true h₂, Bool.true_and, Nat.add_sub_cancel' (by omega)]
    · have h₃ : i - 16 - 16 < 32 := by omega
      have he : 32 + (i - 16 - 16) = i := by omega
      rw [if_neg h₂, decide_eq_true h₃, Bool.true_and, he]

variable {isr label : BitVec 8 → BitVec 64} {idt : Idt}

theorem idtSetDescriptor_spec (idt : Idt) (h : vector.toNat < idtVectors) (a : BitVec 64)
    (flags : BitVec 8) :
    ∃ idt', idtSetDescriptor idt vector a flags = .ok idt' ∧ ∀ w : BitVec 8,
      idt'[w.toNat]? = if vector = w then some (descriptor a flags) else idt[w.toNat]? := by
  refine ⟨_, dif_pos h, fun w => ?_⟩
  rw [Vector.getElem?_set]
  congr 1
  exact propext BitVec.toNat_inj

theorem idtSetDescriptors_spec (isr : BitVec 8 → BitVec 64) (idt : Idt) (l : List (BitVec 8))
    (h : ∀ v ∈ l, v.toNat < idtVectors) :
    ∃ idt', l.foldlM (fun idt v => idtSetDescriptor idt v (isr v) idtDefaultFlags) idt = .ok idt' ∧
      ∀ w : BitVec 8, idt'[w.toNat]? =
        if w ∈ l then some (descriptor (isr w) idtDefaultFlags) else idt[w.toNat]? := by
  induction l generalizing idt with
  | nil => exact ⟨idt, rfl, fun w => (if_neg (List.not_mem_nil)).symm⟩
  | cons v l ih =>
    obtain ⟨idt₁, he₁, hg₁⟩ := idtSetDescriptor_spec idt (h v List.mem_cons_self) (isr v)
      idtDefaultFlags
    obtain ⟨idt₂, he₂, hg₂⟩ := ih idt₁ fun w hw => h w (List.mem_cons_of_mem v hw)
    refine ⟨idt₂, ?_, fun w => ?_⟩
    · rw [List.foldlM_cons, bind_of_ok he₁]
      exact he₂
    · rw [hg₂ w, hg₁ w]
      by_cases hw : w ∈ l
      · rw [if_pos hw, if_pos (List.mem_cons_of_mem v hw)]
      · rw [if_neg hw]
        by_cases hv : v = w
        · rw [if_pos hv, hv, if_pos List.mem_cons_self]
        · have hn : w ∉ v :: l := by
            rw [List.mem_cons, not_or]
            exact ⟨Ne.symm hv, hw⟩
          rw [if_neg hv, if_neg hn]

def gatedVectors : List (BitVec 8) := (List.range 32).map (BitVec.ofNat 8) ++ interruptGates

theorem gatedVectors_eq : gatedVectors = stubs.map Prod.fst := rfl

theorem gatedVectors_lt (hv : v ∈ gatedVectors) : v.toNat < idtVectors := by
  have hgates : ∀ v ∈ interruptGates, v.toNat < idtVectors := by decide
  rcases List.mem_append.1 hv with hv | hv
  · obtain ⟨i, hi, rfl⟩ := List.mem_map.1 hv
    have hlt := List.mem_range.1 hi
    rw [BitVec.toNat_ofNat, idtVectors]
    omega
  · exact hgates v hv

theorem setupIdt_spec (isr : BitVec 8 → BitVec 64) :
    ∃ idt, setupIdt isr = .ok idt ∧ ∀ w : BitVec 8, idt[w.toNat]? =
      if w ∈ gatedVectors then some (descriptor (isr w) idtDefaultFlags)
      else (Vector.replicate idtVectors ⟨0, 0, 0, 0, 0, 0, 0⟩ : Idt)[w.toNat]? := by
  obtain ⟨idt, he, hg⟩ := idtSetDescriptors_spec isr
    (Vector.replicate idtVectors ⟨0, 0, 0, 0, 0, 0, 0⟩) gatedVectors
    fun _ => gatedVectors_lt
  refine ⟨idt, ?_, hg⟩
  rw [gatedVectors, List.foldlM_append, List.foldlM_map] at he
  exact he

theorem setupIdt_gate (hs : setupIdt label = .ok idt) (hg : idt[vector.toNat]? = some e)
    (hp : e.present) : e.offset = label vector ∧ ∃ stub, (vector, stub) ∈ stubs := by
  obtain ⟨idt', he, hget⟩ := setupIdt_spec label
  cases hs.symm.trans he
  have hw := hget vector
  rw [hg] at hw
  by_cases hv : vector ∈ gatedVectors
  · rw [if_pos hv] at hw
    cases hw
    rw [gatedVectors_eq] at hv
    obtain ⟨⟨v, stub⟩, hm, rfl⟩ := List.mem_map.1 hv
    exact ⟨descriptor_offset _ _, stub, hm⟩
  · rw [if_neg hv] at hw
    obtain ⟨hlt, he⟩ := Vector.getElem?_eq_some_iff.1 hw.symm
    rw [Vector.getElem_replicate] at he
    rw [← he] at hp
    cases hp

/-- Every installed gate preserves the interrupted context but those of three vectors. -/
theorem interrupt_preserves_iff (im : Image) (c : Context) (hs : setupIdt im.label = .ok idt)
    (hg : idt[vector.toNat]? = some e) (hp : e.present) :
    ∃ stub, im.code e.offset = some stub ∧
      (c.Preserved vector stub ↔ vector ∉ shiftedVectors) := by
  obtain ⟨ho, stub, hm⟩ := setupIdt_gate hs hg hp
  refine ⟨stub, ?_, c.preserved_stub_iff hm⟩
  rw [ho]
  exact im.linked _ hm

/-- The stubs one behind the other, 64 bytes apart. -/
def flatImage : Image where
  label v := 0xffffffff80001000 + 64 * v.setWidth 64
  code a := (stubs.find? fun e => 0xffffffff80001000 + 64 * e.1.setWidth 64 == a).map Prod.snd
  linked := by decide

def idleContext : Context where
  reg _ := 0
  rip := 0xffffffff80002000
  cs := 0x8
  rflags := 0x202
  rsp := 0xffff800000100000
  ss := 0x10
  mem _ := 0
  errorCode := 0

theorem interrupt_preserves_breakpoint :
    ∃ idt : Idt, ∃ e stub, setupIdt flatImage.label = .ok idt ∧ idt[3]? = some e ∧ e.present ∧
      flatImage.code e.offset = some stub ∧ (idleContext.Preserved 3 stub ↔
        (3 : BitVec 8) ∉ shiftedVectors) := by
  obtain ⟨idt, hs, hget⟩ := setupIdt_spec flatImage.label
  have hg : idt[(3 : BitVec 8).toNat]? = _ := (hget 3).trans (if_pos (by decide))
  obtain ⟨stub, hc, hp⟩ := interrupt_preserves_iff flatImage idleContext hs hg rfl
  exact ⟨idt, _, stub, hs, hg, rfl, hc, hp⟩

/-- A control protection exception comes with an error code that its stub does not expect. -/
theorem controlProtection_shifted :
    ∃ idt : Idt, ∃ e stub, setupIdt flatImage.label = .ok idt ∧ idt[21]? = some e ∧ e.present ∧
      flatImage.code e.offset = some stub ∧ ¬ idleContext.Preserved 21 stub := by
  obtain ⟨idt, hs, hget⟩ := setupIdt_spec flatImage.label
  have hg : idt[(21 : BitVec 8).toNat]? = _ := (hget 21).trans (if_pos (by decide))
  obtain ⟨ho, stub, hm⟩ := setupIdt_gate hs hg rfl
  have hc : flatImage.code _ = some stub := ho ▸ flatImage.linked _ hm
  refine ⟨idt, _, stub, hs, hg, rfl, hc, fun h => ?_⟩
  exact (idleContext.preserved_stub_iff hm).1 h (by decide)

end AdaOS
