import Mathlib.Data.List.DropRight
import AdaOS.Basic
import AdaOS.Core

namespace AdaOS
set_option autoImplicit true

def carriageReturn : BitVec 8 := 0x0d

def backspace : BitVec 8 := 0x08

/-- The commands of the debug shell. -/
inductive Command where
  | memmap
  | clear
  | free
  | time
  | reg
  deriving DecidableEq, Repr

/-- What the handler sends to the serial port, and the buffers its tests have read. -/
inductive SerialEvent where
  | wrote (byte : BitVec 8)
  | printed (text : String)
  | tested (line : Vector (BitVec 8) 255)
  | ran (command : Command)
  deriving DecidableEq, Repr

/-- The static variables of `rs232_handler.c`, with the handler's events newest first. -/
structure Shell where
  terminalRunning : Bool
  lineBuffer : Vector (BitVec 8) 255
  bufferIndex : BitVec 8
  trace : List SerialEvent

def Shell.boot : Shell := ⟨false, Vector.replicate 255 0, 0, []⟩

def Shell.log (s : Shell) (e : SerialEvent) : Shell := { s with trace := e :: s.trace }

/-- `serial_writeb_unsafe_nonblocking`. -/
def Shell.echo (s : Shell) (byte : BitVec 8) : Shell :=
  if byte = 0x0a ∨ byte = carriageReturn then (s.log (.wrote carriageReturn)).log (.wrote 0x0a)
  else s.log (.wrote byte)

def Shell.store (s : Shell) (index : Nat) (byte : BitVec 8) : Except Fault Shell :=
  if h : index < 255 then .ok { s with lineBuffer := s.lineBuffer.set index byte h }
  else .error .outOfBounds

/-- `memset(line_buffer, 0x00, n)`, from `index` on. -/
def Shell.memset (s : Shell) (index : Nat) : Nat → Except Fault Shell
  | 0 => .ok s
  | n + 1 => do (← s.store index 0).memset (index + 1) n

def prompt : String := "adaOS Kernel Debug Shell > "

/-- The `ADD_COMMAND` lines in their order. -/
def commands : List (String × Nat × Command) :=
  [("memmap", 6, .memmap), ("clear", 5, .clear), ("free", 4, .free), ("time", 4, .time),
    ("reg", 3, .reg)]

def findCommand (line : Vector (BitVec 8) 255) : Option Command :=
  (commands.find? fun (name, len, _) =>
    memcmp (fun i => line.toList.getD i 0) (cString name) len == 0).map fun (_, _, func) => func

/-- The command tests and what they lead to. -/
def Shell.answer (s : Shell) : Shell :=
  let s := s.log (.tested s.lineBuffer)
  match findCommand s.lineBuffer with
  | some func => s.log (.ran func)
  | none =>
    if s.terminalRunning ∧ s.lineBuffer[0] ≠ carriageReturn then
      s.log (.printed "Unkown Command.\n")
    else s

/-- The rest of the handler once a carriage return is in the buffer. -/
def Shell.enter (s : Shell) : Except Fault Shell := do
  let s ← s.answer.memset 0 s.bufferIndex.toNat
  .ok { s.log (.printed prompt) with bufferIndex := 0, terminalRunning := true }

/-- The serial interrupt handler on the byte it reads from the port. -/
def rs232Irq (s : Shell) (byte : BitVec 8) : Except Fault Shell := do
  if byte ≠ carriageReturn ∧ ¬ s.terminalRunning then .ok s
  else if byte = backspace then
    if s.bufferIndex = 0 then .ok s
    else
      let s ← (s.echo byte).store s.bufferIndex.toNat 0
      .ok { s with bufferIndex := s.bufferIndex - 1 }
  else
    let s ← (s.echo byte).store s.bufferIndex.toNat byte
    let s := { s with bufferIndex := s.bufferIndex + 1 }
    if byte = carriageReturn then s.enter else .ok s

def Shell.run (s : Shell) (bytes : List (BitVec 8)) : Except Fault Shell :=
  bytes.foldlM rs232Irq s

end AdaOS
