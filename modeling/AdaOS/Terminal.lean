import AdaOS.CpuStatus
import AdaOS.FormattedTime
import AdaOS.Memmap
import AdaOS.Shell

namespace AdaOS.Printf
set_option autoImplicit true

open Traced

/-- `LIMINE_MEMMAP_STRINGS[type]`. -/
def memmapString : MemmapType → String
  | .usable => "USABLE"
  | .reserved => "RESERVED"
  | .acpiReclaimable => "ACPI_RECLAIMABLE"
  | .acpiNvs => "ACPI_NVS"
  | .badMemory => "BAD_MEMORY"
  | .bootloaderReclaimable => "BOOTLOADER_RECLAIMABLE"
  | .executableAndModules => "KERNEL_AND_MODULES"
  | .framebuffer => "FRAMEBUFFER"

def freeString (type : MemmapType) : String := if isMemoryFree type then "True" else "False"

/-- The call in the loop of `serial_print_mem_map`. -/
def segmentLine (i : Nat) (e : MemmapEntry) : String × List Arg :=
  ("Segment %d: Type: %s. Base: %p. Length: %p. Free: %s.\n",
    [.ofWord (.ofNat 64 i), .ofString (memmapString e.type), .ofWord (.ofNat 64 e.base),
      .ofWord (.ofNat 64 e.length), .ofString (freeString e.type)])

def serialPrintMemMap (lineStatus : Nat → BitVec 8) (wait : Nat) (port : Com1)
    (memmap : List MemmapEntry) : Except Fault Com1 :=
  serialPrintLines lineStatus wait port (memmap.mapIdx segmentLine)

/-- The call in `serial_print_free_ram`. -/
def freeLine (freePages usedPages : BitVec 64) : String × List Arg :=
  let length := freePages * BitVec.ofNat 64 pageSize
  let gib := length / 1073741824
  let remainder := length % 1073741824
  let decimal := remainder * 100 / 1073741
  ("Free pages: %d, used pages: %d. Total free: %d.%02dGib\n",
    [.ofWord freePages, .ofWord usedPages, .ofWord gib, .ofWord decimal])

def serialPrintFreeRam (lineStatus : Nat → BitVec 8) (wait : Nat) (port : Com1)
    (freePages usedPages : BitVec 64) : Except Fault Com1 :=
  serialPrintLines lineStatus wait port [freeLine freePages usedPages]

/-- What the handler of the serial port works on. The trace of `shell` is not used here. -/
structure Terminal (σ : Type) where
  shell : Shell
  port : Com1
  console : Console
  heap : Heap σ

/-- What the handler finds: `pages` gives `free_pages` and `used_pages`, `lineStatus` what the port
says it is ready for, and `ticks` and `cmos` what the clocks show in the calls of
`read_cmos_reg`. -/
structure Surroundings (σ : Type) where
  frames : FrameAllocator σ
  pages : σ → BitVec 64 × BitVec 64
  memmap : List MemmapEntry
  font : Nat → BitVec 64
  lineStatus : Nat → BitVec 8
  ticks : Nat → Nat → BitVec 64
  cmos : Nat → BitVec 8 → BitVec 8
  fadtCentury : BitVec 8
  bufs : TimeBuffers

namespace Terminal
variable {σ : Type} (env : Surroundings σ) (wait fuel : Nat)

/-- The console after a call that prints, when what it sends has gone to the port. -/
def mirror (t : Terminal σ) (console : Console) : Except Fault (Terminal σ) := do
  let port ← send env.lineStatus wait t.port (console.sent.drop t.console.sent.length)
  .ok { t with port := port, console := console }

/-- A pointer to a buffer of `kmalloc`, which is `NULL` when that had no memory. -/
def bufferArg (h : Heap σ) (buf size : Nat) : Arg :=
  ⟨.ofNat 64 buf, if buf = 0 then [] else bytesAt h.bytes buf size⟩

/-- The command of an `ADD_COMMAND` line. At most `wait` reads of the line status come before each
byte, and at most `fuel` turns of the loop in each wait for the CMOS. -/
def perform (context : InterruptCpuStatus) (t : Terminal σ) : Command → Except Fault (Terminal σ)
  | .memmap => do
    let port ← serialPrintMemMap env.lineStatus wait t.port env.memmap
    .ok { t with port := port }
  | .clear => do
    let console ← t.console.clear
    t.mirror env wait console
  | .free => do
    let (freePages, usedPages) := env.pages t.heap.vmm.frames
    let port ← serialPrintFreeRam env.lineStatus wait t.port freePages usedPages
    .ok { t with port := port }
  | .time => do
    let (buf, console, heap) ← getFormattedTime env.font
      (waitAndReadCmosReg env.ticks fuel env.cmos) env.frames env.bufs env.fadtCentury t.console
      t.heap
    let t ← { t with heap := heap }.mirror env wait console
    let port ← serialPrintLines env.lineStatus wait t.port [("%s", [bufferArg t.heap buf 25])]
    .ok { t with port := port }
  | .reg => do
    let port ← printCpuStatus env.lineStatus wait t.port context
    .ok { t with port := port }

/-- The command tests and what they lead to. -/
def answer (context : InterruptCpuStatus) (t : Terminal σ) : Except Fault (Terminal σ) :=
  match findCommand t.shell.lineBuffer with
  | some func => t.perform env wait fuel context func
  | none =>
    if t.shell.terminalRunning ∧ t.shell.lineBuffer.get 0 ≠ carriageReturn then do
      let port ← serialPrintLines env.lineStatus wait t.port [("Unkown Command.\n", [])]
      .ok { t with port := port }
    else .ok t

/-- The rest of the handler once a carriage return is in the buffer. -/
def enter (context : InterruptCpuStatus) (t : Terminal σ) : Except Fault (Terminal σ) := do
  let t ← t.answer env wait fuel context
  let shell ← t.shell.memset 0 t.shell.bufferIndex.toNat
  let port ← t.port.serialWriteString env.lineStatus (cString prompt) wait 256
  .ok { t with port := port, shell := { shell with bufferIndex := 0, terminalRunning := true } }

/-- `rs232_irq` on the byte it reads from the port. -/
def rs232Irq (context : InterruptCpuStatus) (t : Terminal σ) (byte : BitVec 8) :
    Except Fault (Terminal σ) := do
  if byte ≠ carriageReturn ∧ ¬ t.shell.terminalRunning then .ok t
  else if byte = backspace then
    if t.shell.bufferIndex = 0 then .ok t
    else
      let port := t.port.serialWritebUnsafeNonblocking byte
      let shell ← t.shell.store t.shell.bufferIndex.toNat 0
      .ok { t with port := port, shell := { shell with bufferIndex := shell.bufferIndex - 1 } }
  else
    let port := t.port.serialWritebUnsafeNonblocking byte
    let shell ← t.shell.store t.shell.bufferIndex.toNat byte
    let t := { t with
      port := port
      shell := { shell with bufferIndex := shell.bufferIndex + 1 } }
    if byte = carriageReturn then t.enter env wait fuel context else .ok t

/-- The handler called for each byte, with the context of the interrupt it comes in. -/
def run (t : Terminal σ) (calls : List (InterruptCpuStatus × BitVec 8)) :
    Except Fault (Terminal σ) :=
  calls.foldlM (fun (t : Terminal σ) (call : InterruptCpuStatus × BitVec 8) =>
    t.rs232Irq env wait fuel call.1 call.2) t

end Terminal

section Texts

/-- What `serial_print_mem_map` prints of an entry. -/
def segmentText (i : Nat) (e : MemmapEntry) : List (BitVec 8) :=
  literal "Segment " ++ (decimal (BitVec.ofNat 32 i).toInt ++ (literal ": Type: " ++
    (literal (memmapString e.type) ++ (literal ". Base: " ++
      (zeroed 16 (standardDigits true 16 (BitVec.ofNat 64 e.base).toNat) ++
        (literal ". Length: " ++
          (zeroed 16 (standardDigits true 16 (BitVec.ofNat 64 e.length).toNat) ++
            (literal ". Free: " ++ (literal (freeString e.type) ++ literal ".\n")))))))))

def memmapText (memmap : List MemmapEntry) : List (BitVec 8) :=
  (memmap.mapIdx segmentText).flatten

/-- What `serial_print_free_ram` prints. -/
def freeText (freePages usedPages : BitVec 64) : List (BitVec 8) :=
  let length := freePages * BitVec.ofNat 64 pageSize
  literal "Free pages: " ++ (decimal (freePages.truncate 32).toInt ++ (literal ", used pages: " ++
    (decimal (usedPages.truncate 32).toInt ++ (literal ". Total free: " ++
      (decimal ((length / 1073741824).truncate 32).toInt ++ (literal "." ++
        (zeroed 2 (standardDigits false 10 (length.toNat % 1073741824 * 100 / 1073741)) ++
          literal "Gib\n")))))))

end Texts

end AdaOS.Printf
