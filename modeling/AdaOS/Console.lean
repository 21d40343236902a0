import AdaOS.Basic
import AdaOS.Raster

namespace AdaOS
set_option autoImplicit true

def u32 (n : Nat) : Nat := n % 2 ^ 32

theorem u32_of_lt (h : n < 2 ^ 32) : u32 n = n := Nat.mod_eq_of_lt h

/-- What the kernel reads of `limine_framebuffer`. The pitch is in bytes, and `pixels` are the
32-bit words from `address` on. -/
structure Framebuffer where
  width : Nat
  height : Nat
  pitch : Nat
  pixels : Nat → BitVec 32

def fontSize : Nat := 2

/-- The statics `calculate_screen_constants` sets once. -/
structure ScreenConstants where
  cursorXMax : Nat
  cursorYMax : Nat
  bytesPerLine : Nat
  bytesPerScreen : Nat
  height : Nat
  width : Nat
  pitch : Nat
  deriving DecidableEq, Repr

/-- The bytes sent to the serial port, and the indices at which `font` is read. -/
inductive ConsoleEvent where
  | wrote (byte : BitVec 8)
  | read (index : Nat)
  deriving DecidableEq, Repr

/-- The statics of `print_lowlevel.c`, with the pixels `fb_ptr` points to and the events, newest
first. -/
structure Console where
  cursorX : Nat
  cursorY : Nat
  onColour : BitVec 32
  offColour : BitVec 32
  skew : BitVec 8
  screen : ScreenConstants
  pixels : Nat → BitVec 32
  trace : List ConsoleEvent

def calculateScreenConstants (fb : Framebuffer) : ScreenConstants :=
  let width := u32 fb.width
  let height := u32 fb.height
  let cursorYMax := u32 (height / (8 * fontSize) + 2 ^ 32 - 1)
  let bytesPerLine := u32 (width * (8 * fontSize) * 4)
  { cursorXMax := u32 (width / (8 * fontSize) + 2 ^ 32 - 1)
    cursorYMax := cursorYMax
    bytesPerLine := bytesPerLine
    bytesPerScreen := u32 (bytesPerLine * u32 (cursorYMax + 1))
    height := height
    width := width
    pitch := u32 (fb.pitch / 4) }

/-- The console once `calculate_screen_constants` has run on the statics' first values. -/
def Console.boot (fb : Framebuffer) : Console where
  cursorX := 0
  cursorY := 0
  onColour := 0xffffff
  offColour := 0x000000
  skew := 0
  screen := calculateScreenConstants fb
  pixels := fb.pixels
  trace := []

def Console.log (c : Console) (e : ConsoleEvent) : Console := { c with trace := e :: c.trace }

/-- `serial_writeb_blocking`. -/
def Console.serialWrite (c : Console) (byte : BitVec 8) : Console := c.log (.wrote byte)

/-- The pixels of the framebuffer. -/
def Console.size (c : Console) : Nat := c.screen.pitch * c.screen.height

/-- `memcpy` of `n` pixels. -/
def Console.memcpy (c : Console) (dst src n : Nat) : Except Fault Console :=
  if dst + n ≤ c.size ∧ src + n ≤ c.size then
    .ok { c with pixels := Raster.copy c.pixels dst src n }
  else .error .outOfBounds

/-- `memset` of `n` pixels to 0. -/
def Console.memset (c : Console) (dst n : Nat) : Except Fault Console :=
  if dst + n ≤ c.size then .ok { c with pixels := Raster.fill c.pixels 0 dst n }
  else .error .outOfBounds

def Console.setPixel (c : Console) (index : Nat) (colour : BitVec 32) : Except Fault Console :=
  if index < c.size then .ok { c with pixels := Function.update c.pixels index colour }
  else .error .outOfBounds

/-- The first pixel of text row `i`. -/
def Console.rowStart (c : Console) (i : Nat) : Nat := u32 (i * 8 * fontSize * c.screen.pitch)

/-- The pixels `scroll` takes a text row to be, from its count of bytes. -/
def Console.rowPixels (c : Console) : Nat := u32 (c.screen.width * 4 * 8 * fontSize) / 4

/-- The copy loop of `scroll` for the rows `i`, `i + 1`, ..., `n` of them. -/
def Console.scrollRows (c : Console) (i : Nat) : Nat → Except Fault Console
  | 0 => .ok c
  | n + 1 => do
    let c ← c.memcpy (c.rowStart i) (c.rowStart (i + 1)) c.rowPixels
    c.scrollRows (i + 1) n

def Console.scrollLine (c : Console) : Except Fault Console := do
  let c ← c.scrollRows 0 c.screen.cursorYMax
  let c ← c.memset (c.rowStart c.screen.cursorYMax) c.rowPixels
  .ok (c.serialWrite 0x0a)

def Console.scroll (c : Console) : Nat → Except Fault Console
  | 0 => .ok c
  | lines + 1 => do (← c.scrollLine).scroll lines

def Console.nlCursor (c : Console) : Except Fault Console :=
  if u32 (c.cursorY + 1) > c.screen.cursorYMax then do
    let c ← c.scroll 1
    .ok { c with cursorX := 0 }
  else .ok (Console.serialWrite { c with cursorX := 0, cursorY := u32 (c.cursorY + 1) } 0x0a)

def Console.advanceCursor (c : Console) : Except Fault Console :=
  if u32 (c.cursorX + 1) > c.screen.cursorXMax then c.nlCursor
  else .ok { c with cursorX := u32 (c.cursorX + 1) }

def Console.cursorGoto (c : Console) (x y : Nat) : Console :=
  if x > c.screen.cursorXMax ∨ y > c.screen.cursorYMax then c
  else { c with cursorX := x, cursorY := y }

/-- One turn of the four loops of `print_bitmap`. -/
structure Subpixel where
  i : Nat
  n : Nat
  dy : Nat
  dx : Nat
  deriving DecidableEq, Repr

/-- The turns of the loops of `print_bitmap`, in order. -/
def subpixels : List Subpixel :=
  (List.range 8).flatMap fun i => (List.range 8).flatMap fun n =>
    (List.range fontSize).flatMap fun dy => (List.range fontSize).map fun dx => ⟨i, n, dy, dx⟩

/-- Bit `7 - n` of row `i` of a glyph, the top row in the highest byte. -/
def glyphBit (bitmap : BitVec 64) (i n : Nat) : Bool := bitmap.getLsbD ((7 - i) * 8 + (7 - n))

def Console.drawSubpixel (bitmap : BitVec 64) (x y : Nat) (c : Console) (s : Subpixel) :
    Except Fault Console :=
  let color := if glyphBit bitmap s.i s.n then c.onColour else c.offColour
  let px := u32 (x + s.n * fontSize + s.dx + c.skew.toNat * (7 - s.i))
  let py := u32 (y + s.i * fontSize + s.dy)
  c.setPixel (u32 (py * c.screen.pitch + px)) color

def Console.printBitmap (c : Console) (bitmap : BitVec 64) (x y : Nat) : Except Fault Console :=
  subpixels.foldlM (Console.drawSubpixel bitmap x y) c

def Console.setTextColour (c : Console) (colour : BitVec 32) : Console :=
  { c with onColour := colour }

def Console.setTextBgColour (c : Console) (colour : BitVec 32) : Console :=
  { c with offColour := colour }

def Console.setSkew (c : Console) (n : BitVec 8) : Console := { c with skew := n }

/-- `serial_write_string` on a string literal. -/
def Console.serialWriteString (c : Console) (s : String) : Console :=
  s.toList.foldl (fun c ch => c.serialWrite (BitVec.ofNat 8 ch.toNat)) c

def Console.clear (c : Console) : Except Fault Console := do
  let c ← c.memset 0 (c.screen.bytesPerScreen / 4)
  .ok (Console.serialWriteString { c with cursorX := 0, cursorY := 0 } "Cleared VGA.\n")

def Console.calculateY (c : Console) : Nat := u32 (c.cursorY * 8 * fontSize)

def Console.calculateX (c : Console) : Nat := u32 (c.cursorX * 8 * fontSize)

section Text
variable (font : Nat → BitVec 64)

/-- `k_putc`, where `font` is what the memory from `font` on holds. `sizeof(font)` is that of the
128 glyphs declared in the file. -/
def Console.kPutc (c : Console) (ch : BitVec 16) : Except Fault Console :=
  if ch = 0x0a then do
    let c ← c.nlCursor
    .ok { c with cursorX := 0 }
  else if ch = 0x0d then .ok { c with cursorX := 0 }
  else
    let c := c.log (.read ch.toNat)
    if ch.toNat > 128 * 8 / (8 / 2) then .ok (c.log (.read 0))
    else do
      let c ← c.printBitmap (font ch.toNat) c.calculateX c.calculateY
      let c := if ch.toNat < 128 then c.serialWrite (ch.truncate 8) else c
      c.advanceCursor

/-- The loop of `k_puts`, whose index is a byte. -/
def Console.kPutsFrom (s : Nat → BitVec 8) : Nat → Nat → Console → Except Fault Console
  | 0, _, _ => .error .diverges
  | fuel + 1, i, c =>
    if s i = 0 then .ok c
    else if s i = 0x0a then do
      let c ← c.nlCursor
      Console.kPutsFrom s fuel ((i + 1) % 256) { c with cursorX := 0 }
    else if s i = 0x0d then Console.kPutsFrom s fuel ((i + 1) % 256) { c with cursorX := 0 }
    else do
      let c ← c.kPutc font ((s i).signExtend 16)
      Console.kPutsFrom s fuel ((i + 1) % 256) c

/-- `k_puts` on the bytes from `s` on. The index comes back to 0 after 256 turns, so a string
without a terminator among its first 256 bytes is printed for ever. -/
def Console.kPuts (c : Console) (s : Nat → BitVec 8) : Except Fault Console :=
  Console.kPutsFrom font s 256 0 c

/-- The first loop of `k_puti`: the power of ten of the leading digit, and the digit count. -/
def scaleLoop (n : Nat) : Nat → Nat → Nat → Except Fault (Nat × Nat)
  | 0, _, _ => .error .diverges
  | fuel + 1, div, digitCount =>
    if div ≤ n / 10 then scaleLoop n fuel (u32 (div * 10)) (digitCount + 1)
    else .ok (div, digitCount)

/-- The body of the second loop of `k_puti`, up to the cursor. -/
def Console.printDigit (c : Console) (digit : Nat) : Except Fault Console := do
  let c := c.log (.read digit)
  let c := if digit > 57 ∨ digit < 48 then c.log (.read 0) else c
  let bitmap := if digit > 57 ∨ digit < 48 then font 0 else font digit
  let c ← c.printBitmap bitmap c.calculateX c.calculateY
  (c.serialWrite (BitVec.ofNat 8 digit)).advanceCursor

/-- The second loop of `k_puti`. -/
def Console.printDigits (c : Console) (n div : Nat) : Nat → Except Fault Console
  | 0 => .ok c
  | digitCount + 1 => do
    let c ← c.printDigit font (u32 (n / div + 48))
    c.printDigits (n % div) (div / 10) digitCount

/-- `k_puti`; a 32-bit number has ten digits at most. -/
def Console.kPuti (c : Console) (n : BitVec 32) : Except Fault Console := do
  let (div, digitCount) ← scaleLoop n.toNat 10 1 1
  c.printDigits font n.toNat div digitCount

/-- The calls the kernel can make, with any arguments. -/
inductive ConsoleCall where
  | kPutc (ch : BitVec 16)
  | kPuts (s : Nat → BitVec 8)
  | kPuti (n : BitVec 32)
  | cursorGoto (x y : BitVec 32)
  | scroll (lines : BitVec 8)
  | clear
  | setSkew (n : BitVec 8)
  | setTextColour (colour : BitVec 32)
  | setTextBgColour (colour : BitVec 32)

def ConsoleCall.run (c : Console) : ConsoleCall → Except Fault Console
  | .kPutc ch => c.kPutc font ch
  | .kPuts s => c.kPuts font s
  | .kPuti n => c.kPuti font n
  | .cursorGoto x y => .ok (c.cursorGoto x.toNat y.toNat)
  | .scroll lines => c.scroll lines.toNat
  | .clear => c.clear
  | .setSkew n => .ok (c.setSkew n)
  | .setTextColour colour => .ok (c.setTextColour colour)
  | .setTextBgColour colour => .ok (c.setTextBgColour colour)

def Console.run (c : Console) (calls : List ConsoleCall) : Except Fault Console :=
  calls.foldlM (ConsoleCall.run font) c

end Text

end AdaOS
