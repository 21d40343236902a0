import AdaOS.Basic
import AdaOS.StackMachine

namespace AdaOS
set_option autoImplicit true
open StackMachine

/-- The general registers. -/
inductive Reg where
  | rax | rbx | rcx | rdx | rsi | rdi | rbp | r8 | r9 | r10 | r11 | r12 | r13 | r14 | r15
  deriving DecidableEq, Repr

/-- `exception_handler_asm`, up to its `iretq`. -/
def exceptionHandlerAsm : List (Instr Reg) :=
  [.push .rax, .push .rbx, .push .rcx, .push .rdx, .push .rsi, .push .rdi, .push .rbp,
    .push .r8, .push .r9, .push .r10, .push .r11, .push .r12, .push .r13, .push .r14, .push .r15,
    .movRsp .rdi, .call,
    .pop .r15, .pop .r14, .pop .r13, .pop .r12, .pop .r11, .pop .r10, .pop .r9, .pop .r8,
    .pop .rbp, .pop .rdi, .pop .rsi, .pop .rdx, .pop .rcx, .pop .rbx, .pop .rax,
    .addRsp 16]

/-- The macro `no_err`. -/
def noErr (vector : BitVec 64) : List (Instr Reg) :=
  .pushImm 0 :: .pushImm vector :: exceptionHandlerAsm

/-- The macro `err`. -/
def err (vector : BitVec 64) : List (Instr Reg) := .pushImm vector :: exceptionHandlerAsm

/-- The stubs in their order, each under the number in its label. -/
def stubs : List (BitVec 8 × List (Instr Reg)) :=
  [(0, noErr 0), (1, noErr 1), (2, noErr 2), (3, noErr 3), (4, noErr 4), (5, noErr 5),
    (6, noErr 6), (7, noErr 7), (8, err 8), (9, noErr 9), (10, err 10), (11, err 11),
    (12, err 12), (13, err 13), (14, err 14), (15, noErr 15), (16, noErr 16), (17, err 17),
    (18, noErr 18), (19, noErr 19), (20, noErr 20), (21, noErr 21), (22, noErr 22),
    (23, noErr 23), (24, noErr 24), (25, noErr 25), (26, noErr 26), (27, noErr 27),
    (28, noErr 28), (29, noErr 29), (30, err 30), (31, noErr 31), (0x20, noErr 0x20),
    (0x24, noErr 0x24), (0x70, noErr 0x70), (0xf0, noErr 0xf0), (0xf1, noErr 0xf1),
    (0xf2, noErr 0xf2), (0xf3, noErr 0xf3), (0xf4, noErr 0xf4), (0xf5, noErr 0xf5),
    (0xf6, err 0xf6)]

structure InterruptCpuStatus where
  r15 : BitVec 64
  r14 : BitVec 64
  r13 : BitVec 64
  r12 : BitVec 64
  r11 : BitVec 64
  r10 : BitVec 64
  r9 : BitVec 64
  r8 : BitVec 64
  rbp : BitVec 64
  rdi : BitVec 64
  rsi : BitVec 64
  rdx : BitVec 64
  rcx : BitVec 64
  rbx : BitVec 64
  rax : BitVec 64
  vectorNumber : BitVec 64
  errorCode : BitVec 64
  iretRip : BitVec 64
  iretCs : BitVec 64
  iretFlags : BitVec 64
  iretRsp : BitVec 64
  iretSs : BitVec 64

/-- The packed structure that starts at `p`. -/
def readStatus (mem : BitVec 64 → BitVec 64) (p : BitVec 64) : InterruptCpuStatus :=
  ⟨mem (slot p 0), mem (slot p 1), mem (slot p 2), mem (slot p 3), mem (slot p 4),
    mem (slot p 5), mem (slot p 6), mem (slot p 7), mem (slot p 8), mem (slot p 9),
    mem (slot p 10), mem (slot p 11), mem (slot p 12), mem (slot p 13), mem (slot p 14),
    mem (slot p 15), mem (slot p 16), mem (slot p 17), mem (slot p 18), mem (slot p 19),
    mem (slot p 20), mem (slot p 21)⟩

structure IdtEntry where
  offsetLow : BitVec 16
  selector : BitVec 16
  ist : BitVec 8
  typeAttr : BitVec 8
  offsetMid : BitVec 16
  offsetHigh : BitVec 32
  zero : BitVec 32
  deriving DecidableEq, Repr

def idtVectors : Nat := 255

abbrev Idt := Vector IdtEntry idtVectors

def gdtOffsetKernelCode : BitVec 16 := 0x8

def idtDefaultFlags : BitVec 8 := 0x8E

def descriptor (isr : BitVec 64) (flags : BitVec 8) : IdtEntry where
  offsetLow := (isr &&& 0xFFFF).setWidth 16
  selector := gdtOffsetKernelCode
  ist := 0
  typeAttr := flags
  offsetMid := ((isr >>> 16) &&& 0xFFFF).setWidth 16
  offsetHigh := ((isr >>> 32) &&& 0xFFFFFFFF).setWidth 32
  zero := 0

def idtSetDescriptor (idt : Idt) (index : BitVec 8) (isr : BitVec 64) (flags : BitVec 8) :
    Except Fault Idt :=
  if h : index.toNat < idtVectors then .ok (idt.set index.toNat (descriptor isr flags) h)
  else .error .outOfBounds

/-- The gates that `setup_idt` installs behind those of the stub table. -/
def interruptGates : List (BitVec 8) :=
  [0x20, 0x24, 0x70, 0xf0, 0xf1, 0xf2, 0xf3, 0xf4, 0xf5, 0xf6]

/-- `setup_idt`; `isr` gives the addresses of the stubs' labels. -/
def setupIdt (isr : BitVec 8 → BitVec 64) : Except Fault Idt := do
  let idt : Idt := Vector.replicate idtVectors ⟨0, 0, 0, 0, 0, 0, 0⟩
  let idt ← (List.range 32).foldlM (fun idt vector =>
    idtSetDescriptor idt (BitVec.ofNat 8 vector) (isr (BitVec.ofNat 8 vector)) idtDefaultFlags) idt
  interruptGates.foldlM (fun idt vector =>
    idtSetDescriptor idt vector (isr vector) idtDefaultFlags) idt

/-- What the processor makes of a gate: its present bit and the address it jumps to. -/
def IdtEntry.present (e : IdtEntry) : Bool := e.typeAttr.getLsbD 7

def IdtEntry.offset (e : IdtEntry) : BitVec 64 := e.offsetHigh ++ e.offsetMid ++ e.offsetLow

/-- The linked kernel: where the labels of the stubs are and what code stands at an address. -/
structure Image where
  label : BitVec 8 → BitVec 64
  code : BitVec 64 → Option (List (Instr Reg))
  linked : ∀ e ∈ stubs, code (label e.1) = some e.2

/-- The interrupted program, with the code the processor has for the error, if there is one. -/
structure Context where
  reg : Reg → BitVec 64
  rip : BitVec 64
  cs : BitVec 64
  rflags : BitVec 64
  rsp : BitVec 64
  ss : BitVec 64
  mem : BitVec 64 → BitVec 64
  errorCode : BitVec 64

/-- The vectors for which the architecture defines an error code. -/
def hasErrorCode (vector : BitVec 8) : Bool :=
  [8, 10, 11, 12, 13, 14, 17, 21, 29, 30].contains vector

/-- The processor aligns the stack to 16 bytes before it pushes. -/
def Context.stackTop (c : Context) : BitVec 64 := c.rsp &&& ~~~15

def Context.pushed (c : Context) (vector : BitVec 8) : List (BitVec 64) :=
  [c.ss, c.rsp, c.rflags, c.cs, c.rip] ++ if hasErrorCode vector then [c.errorCode] else []

def Context.deliver (c : Context) (vector : BitVec 8) : State Reg :=
  State.pushAll ⟨c.reg, c.stackTop, c.mem⟩ (c.pushed vector)

/-- Where the processor has pushed `RIP`. -/
def Context.ripSlot (c : Context) : BitVec 64 := c.stackTop - 40

/-- The state in which a stub calls `exception_handler`. -/
def Context.atCall (c : Context) (vector : BitVec 8) (stub : List (Instr Reg)) : State Reg :=
  run id (c.deliver vector) (stub.takeWhile (· != .call))

/-- The state in which a stub reaches `iretq`. -/
def Context.atIretq (c : Context) (vector : BitVec 8) (stub : List (Instr Reg))
    (exceptionHandler : State Reg → State Reg) : State Reg :=
  run exceptionHandler (c.deliver vector) stub

end AdaOS
