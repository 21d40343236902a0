import AdaOS.CpuStatusReads
import AdaOS.Panic
import AdaOS.Terminal

namespace AdaOS.Printf
set_option autoImplicit true

open Traced

section Unimplemented
variable (font : Nat → BitVec 64)

def unimplementedFault (c : Console) (msg : String) (context : InterruptCpuStatus) :
    Except Fault Console := do
  let c ← kLog font c (stringLiteral "Hit fault: '%s (%d, 0x%x)'")
    [.ofString msg, .ofWord context.vectorNumber, .ofWord context.vectorNumber]
  printCpuStatusInterrupt font c context

def unimplementedTrap (c : Console) (msg : String) (context : InterruptCpuStatus) :
    Except Fault Console :=
  kLog font c (stringLiteral "Hit trap: '%s (%d, 0x%x)'")
    [.ofString msg, .ofWord context.vectorNumber, .ofWord context.vectorNumber]

/-- What `unimplemented_abort` does before it halts. -/
def unimplementedAbort (alarm : Alarm) (fuel : Nat) (c : Console) (panics : BitVec 8) (msg : String)
    (context : InterruptCpuStatus) :
    Except Fault (Console × BitVec 8 × List (BitVec 16 × BitVec 8)) := do
  let c ← printCpuStatusInterrupt font c context
  panic font alarm fuel c panics msg

end Unimplemented

/-- What `exception_handler` does about a vector. After a fault it can dump the registers again,
and halt. -/
inductive Response where
  | fault (msg : String) (again halts : Bool)
  | trap (msg : String)
  | abort (msg : String)
  | pit
  | serial
  | apicTimer
  deriving DecidableEq

/-- The cases of the switch in `exception_handler`. -/
def response (vector : BitVec 64) : Response :=
  match vector.toNat with
  | 0x0 => .fault "Division Error (#DE)" false false
  | 0x1 => .trap "Debug (#DB)"
  | 0x2 => .fault "Non-maskable Interrupt" false false
  | 0x3 => .trap "Breakpoint (#BP)"
  | 0x4 => .trap "Overflow (#OF)"
  | 0x5 => .fault "Bound Range Exceeded (#BR)" false false
  | 0x6 => .fault "Invalid Opcode (#UD)" false true
  | 0x7 => .fault "Device Not Available (#NM)" false false
  | 0x8 => .abort "Double Fault (#DF)"
  | 0x9 => .fault "Coprocessor Segment Overrun" false false
  | 0xA => .fault "Invalid TSS (#TS)" false false
  | 0xB => .fault "Segment Not Present (#NP)" false false
  | 0xC => .fault "Stack-Segment Fault (#SS)" false false
  | 0xD => .fault "General Protection Fault (#GP)" true true
  | 0xE => .fault "Page Fault (#PF)" false true
  | 0xF => .fault "Reserved (0xF)" false false
  | 0x10 => .fault "x86 Floating-Point Exception (#MF)" false false
  | 0x11 => .fault "Alignment Check (#AC)" false false
  | 0x12 => .abort "Machine Check (#MC)"
  | 0x13 => .fault "SIMD Floating-Point Exception (#XM/#XF)" false false
  | 0x14 => .fault "Virtualization Exception (#VE)" false false
  | 0x15 => .fault "Control Protection Exception (#CP)" false false
  | 0x16 | 0x17 | 0x18 | 0x19 | 0x1A | 0x1B => .fault "Reserved" false false
  | 0x1C => .fault "Hypervisor Injection Exception (#HV)" false false
  | 0x1D => .fault "VMM Communication Exception (#VC)" false false
  | 0x1E => .fault "Security Exception (#SX)" false false
  | 0x1F => .fault "Reserved" false false
  | 0x20 => .pit
  | 0x24 => .serial
  | 0x70 => .fault "Syscall" false false
  | 0xf0 => .fault "APIC Spurious Vector" false false
  | 0xf1 => .apicTimer
  | 0xf2 => .abort "APIC Thermal Shutdown"
  | 0xf3 => .fault "APIC Performance Counter" false false
  | 0xf4 | 0xf5 => .fault "APIC LINT" false false
  | 0xf6 => .abort "APIC Fatal Error"
  | 0xff => .abort "Unhandled NMI"
  | _ => .fault "Unknown Exception" true false

def Response.halts : Response → Bool
  | .fault _ _ halts => halts
  | .abort _ => true
  | _ => false

def Response.aborts : Response → Bool
  | .abort _ => true
  | _ => false

/-- Where an interrupt is acknowledged. -/
inductive Ack where
  | pic
  | apic
  deriving DecidableEq

def ackOf (vector : BitVec 64) : Ack := if vector > 0xf0 then .apic else .pic

/-- What `exception_handler` works on, with the acknowledgements in order; `port61` is what a
`panic` reads from port 0x61. -/
structure Machine (σ : Type) where
  terminal : Terminal σ
  state : GlobalState
  timerGoalFrequency : BitVec 32
  pitTicks : BitVec 64
  apicTicks : BitVec 64
  port61 : Nat → BitVec 8
  panics : BitVec 8
  acks : List Ack

/-- An interrupt, and what the serial port gives when it is read. -/
structure Delivery where
  context : InterruptCpuStatus
  byte : BitVec 8

/-- A handler returns, or it halts. -/
inductive Ending (α : Type) where
  | returned (a : α)
  | halted (a : α)

namespace Machine
variable {σ : Type} (env : Surroundings σ) (wait fuel : Nat)

/-- The gates of the interrupt table are interrupt gates, so no tick is counted in a handler. -/
def surroundings (m : Machine σ) : Surroundings σ :=
  { env with ticks := fun _ _ => m.apicTicks }

def alarm (m : Machine σ) : Alarm where
  state := m.state
  timerGoalFrequency := m.timerGoalFrequency
  apicTicks := fun _ _ => m.apicTicks
  pitTicks := fun _ _ => m.pitTicks
  port61 := m.port61

def exceptionHandler (m : Machine σ) (d : Delivery) : Except Fault (Ending (Machine σ)) := do
  let m := { m with acks := m.acks ++ [ackOf d.context.vectorNumber] }
  match response d.context.vectorNumber with
  | .fault msg again halts =>
    let c ← unimplementedFault env.font m.terminal.console msg d.context
    let c ← if again then printCpuStatusInterrupt env.font c d.context else .ok c
    let t ← m.terminal.mirror env wait c
    .ok (if halts then .halted { m with terminal := t } else .returned { m with terminal := t })
  | .trap msg =>
    let c ← unimplementedTrap env.font m.terminal.console msg d.context
    let t ← m.terminal.mirror env wait c
    .ok (.returned { m with terminal := t })
  | .abort msg =>
    let (c, panics, _) ← unimplementedAbort env.font m.alarm fuel m.terminal.console m.panics msg
      d.context
    let t ← m.terminal.mirror env wait c
    .ok (.halted { m with terminal := t, panics := panics })
  | .pit => .ok (.returned { m with pitTicks := m.pitTicks + 1 })
  | .serial =>
    let t ← m.terminal.rs232Irq (m.surroundings env) wait fuel d.context d.byte
    .ok (.returned { m with terminal := t })
  | .apicTimer => .ok (.returned { m with apicTicks := m.apicTicks + 1 })

/-- Interrupts one after the other, until a handler halts. -/
def run (m : Machine σ) : List Delivery → Except Fault (Ending (Machine σ))
  | [] => .ok (.returned m)
  | d :: ds => do
    match ← m.exceptionHandler env wait fuel d with
    | .returned m => m.run ds
    | .halted m => .ok (.halted m)

end Machine

end AdaOS.Printf
