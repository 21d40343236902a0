import AdaOS.FontLookups
import AdaOS.Rs232

namespace AdaOS.Printf
set_option autoImplicit true

def ch (c : Char) : BitVec 8 := .ofNat 8 c.toNat

/-- The `FLAGS_` bits. `FLAGS_ADAPT_EXP` belongs to the floating point conversions, which are
compiled out. -/
structure Flags where
  zeropad : Bool
  left : Bool
  plus : Bool
  space : Bool
  hash : Bool
  uppercase : Bool
  char : Bool
  short : Bool
  long : Bool
  longLong : Bool
  precision : Bool
  deriving DecidableEq, Repr

def Flags.none : Flags :=
  ⟨false, false, false, false, false, false, false, false, false, false, false⟩

/-- A slot of a `va_list`: its 64 bits and, where they are a pointer, the bytes from there to the
end of the object pointed into. -/
structure Arg where
  word : BitVec 64
  target : List (BitVec 8)
  deriving DecidableEq

def Arg.ofInt (x : BitVec 32) : Arg := ⟨x.setWidth 64, []⟩

def Arg.ofWord (x : BitVec 64) : Arg := ⟨x, []⟩

/-- The bytes of a string literal without its terminator. -/
def literal (s : String) : List (BitVec 8) := s.toList.map ch

def stringLiteral (s : String) : List (BitVec 8) := literal s ++ [0]

/-- A pointer to a string literal, whose address is not printed. -/
def Arg.ofString (s : String) : Arg := ⟨0, stringLiteral s⟩

/-- `va_arg`. To read more arguments than there are is undefined. -/
def vaArg : List Arg → Except Fault (Arg × List Arg)
  | [] => .error .outOfBounds
  | arg :: va => .ok (arg, va)

/-- `out_fct_type`: the character, what `buffer` points to, `idx` and `maxlen`. -/
abbrev OutFct (β : Type) := BitVec 8 → β → Nat → Nat → Except Fault β

/-- What the output loops change: what `buffer` points to, and `idx`. -/
structure Cursor (β : Type) where
  buffer : β
  idx : Nat
  deriving DecidableEq

def outBuffer : OutFct (List (BitVec 8)) := fun character buffer idx maxlen =>
  if idx < maxlen then
    if idx < buffer.length then .ok (buffer.set idx character) else .error .outOfBounds
  else .ok buffer

def outNull : OutFct Unit := fun _ _ _ _ => .ok ()

def outChar (font : Nat → BitVec 64) : OutFct Console := fun character console _ _ =>
  console.outChar font character

/-- `_serial_out_char`, with at most `wait` reads of the line status for each byte. -/
def serialOutChar (lineStatus : Nat → BitVec 8) (wait : Nat) : OutFct Com1 :=
  fun character port _ _ =>
    if character ≠ 0 then port.serialWritebBlocking lineStatus character wait else .ok port

/-- `_out_fct`, where `σ` is what the caller's `arg` points to. -/
def outFct (fct : BitVec 8 → σ → Except Fault σ) : OutFct σ := fun character arg _ _ =>
  if character ≠ 0 then fct character arg else .ok arg

def isDigit (c : BitVec 8) : Bool := ch '0' ≤ c && c ≤ ch '9'

/-- `_atoi` from the value `i` on, with what it leaves of the string. -/
def atoi (i : Nat) : List (BitVec 8) → Except Fault (Nat × List (BitVec 8))
  | [] => .error .outOfBounds
  | c :: str =>
    if isDigit c then atoi (u32 (i * 10 + (c - ch '0').toNat)) str else .ok (i, c :: str)

def strnlenS : List (BitVec 8) → Nat → Except Fault Nat
  | [], _ => .error .outOfBounds
  | c :: str, maxsize =>
    if c = 0 ∨ maxsize = 0 then .ok 0 else do .ok ((← strnlenS str (maxsize - 1)) + 1)

def ntoaBufferSize : Nat := 32

section Output
variable {β : Type} (out : OutFct β) (maxlen : Nat)

/-- `out(character, buffer, idx++, maxlen)`. -/
def put (s : Cursor β) (character : BitVec 8) : Except Fault (Cursor β) := do
  .ok ⟨← out character s.buffer s.idx maxlen, u64 (s.idx + 1)⟩

/-- The padding loops, which put `n` spaces. -/
def putSpaces (s : Cursor β) : Nat → Except Fault (Cursor β)
  | 0 => .ok s
  | n + 1 => do putSpaces (← put out maxlen s (ch ' ')) n

/-- A padding loop that stands behind a test of the flags. -/
def putPadding (s : Cursor β) (pad : Bool) (n : Nat) : Except Fault (Cursor β) :=
  if pad then putSpaces out maxlen s n else .ok s

/-- The loop of `_out_rev` over what `buf` holds, from its end. -/
def putReversed (s : Cursor β) : List (BitVec 8) → Except Fault (Cursor β)
  | [] => .ok s
  | c :: buf => do put out maxlen (← putReversed s buf) c

def outRev (s : Cursor β) (buf : List (BitVec 8)) (width : Nat) (flags : Flags) :
    Except Fault (Cursor β) := do
  let s ← putPadding out maxlen s (!flags.left && !flags.zeropad) (width - buf.length)
  let s ← putReversed out maxlen s buf
  putPadding out maxlen s flags.left (width - buf.length)

/-- `if (len < PRINTF_NTOA_BUFFER_SIZE) buf[len++] = c;` -/
def push (buf : List (BitVec 8)) (c : BitVec 8) : List (BitVec 8) :=
  if buf.length < ntoaBufferSize then buf ++ [c] else buf

/-- `while (len < n && len < PRINTF_NTOA_BUFFER_SIZE) buf[len++] = '0';` -/
def zerosTo (n : Nat) (buf : List (BitVec 8)) : List (BitVec 8) :=
  buf ++ List.replicate (min n ntoaBufferSize - buf.length) (ch '0')

def hashPrefix (base prec width : Nat) (flags : Flags) (buf : List (BitVec 8)) : List (BitVec 8) :=
  let buf :=
    if !flags.precision ∧ buf ≠ [] ∧ (buf.length = prec ∨ buf.length = width) then
      let buf := buf.dropLast
      if buf ≠ [] ∧ base = 16 then buf.dropLast else buf
    else buf
  let buf :=
    if base = 16 then push buf (if flags.uppercase then ch 'X' else ch 'x')
    else if base = 2 then push buf (ch 'b')
    else buf
  push buf (ch '0')

def signPrefix (negative : Bool) (flags : Flags) (buf : List (BitVec 8)) : List (BitVec 8) :=
  if negative then push buf (ch '-')
  else if flags.plus then push buf (ch '+')
  else if flags.space then push buf (ch ' ')
  else buf

/-- The width that `_ntoa_format` goes on with: one less where zeros leave room for a sign. -/
def padWidth (negative : Bool) (width : Nat) (flags : Flags) : Nat :=
  if !flags.left ∧ width ≠ 0 ∧ flags.zeropad ∧ (negative || flags.plus || flags.space) then
    width - 1
  else width

def padZeros (prec width : Nat) (flags : Flags) (buf : List (BitVec 8)) : List (BitVec 8) :=
  if flags.left then buf
  else if flags.zeropad then zerosTo width (zerosTo prec buf)
  else zerosTo prec buf

/-- `_ntoa_format`, where `buf` holds the digits, the last one first. -/
def ntoaFormat (s : Cursor β) (buf : List (BitVec 8)) (negative : Bool) (base prec width : Nat)
    (flags : Flags) : Except Fault (Cursor β) :=
  let width := padWidth negative width flags
  let buf := padZeros prec width flags buf
  let buf := if flags.hash then hashPrefix base prec width flags buf else buf
  outRev out maxlen s (signPrefix negative flags buf) width flags

def digitChar (uppercase : Bool) (digit : Nat) : BitVec 8 :=
  .ofNat 8 (if digit < 10 then 48 + digit else (if uppercase then 65 else 97) + digit - 10)

/-- The digits that the loop of `_ntoa_long` puts in the free part of its buffer. -/
def ntoaDigits (uppercase : Bool) (base : Nat) : Nat → Nat → List (BitVec 8)
  | 0, _ => []
  | n + 1, value =>
    digitChar uppercase (value % base) ::
      if value / base = 0 then [] else ntoaDigits uppercase base n (value / base)

/-- What the buffer holds then; the digit 0 is left out where there is a precision. -/
def valueDigits (flags : Flags) (base value : Nat) : List (BitVec 8) :=
  if !flags.precision ∨ value ≠ 0 then ntoaDigits flags.uppercase base ntoaBufferSize value else []

def ntoaLong (s : Cursor β) (value : Nat) (negative : Bool) (base prec width : Nat)
    (flags : Flags) : Except Fault (Cursor β) :=
  let flags := if value = 0 then { flags with hash := false } else flags
  let buf := valueDigits flags base value
  ntoaFormat out maxlen s buf negative base prec width flags

/-- `long long` has the 64 bits of `long`, and `_ntoa_long_long` the body of `_ntoa_long`. -/
def ntoaLongLong : Cursor β → Nat → Bool → Nat → Nat → Nat → Flags → Except Fault (Cursor β) :=
  ntoaLong out maxlen

end Output

def parseFlags (flags : Flags) : List (BitVec 8) → Except Fault (Flags × List (BitVec 8))
  | [] => .error .outOfBounds
  | c :: format =>
    if c = ch '0' then parseFlags { flags with zeropad := true } format
    else if c = ch '-' then parseFlags { flags with left := true } format
    else if c = ch '+' then parseFlags { flags with plus := true } format
    else if c = ch ' ' then parseFlags { flags with space := true } format
    else if c = ch '#' then parseFlags { flags with hash := true } format
    else .ok (flags, c :: format)

/-- The locals of `_vsnprintf` that a directive sets, with `format` and `va`. -/
structure Parse where
  flags : Flags
  width : Nat
  precision : Nat
  format : List (BitVec 8)
  va : List Arg
  deriving DecidableEq

/-- `va_arg(va, int)`. -/
def Arg.int (arg : Arg) : BitVec 32 := arg.word.setWidth 32

def parseWidth (p : Parse) : Except Fault Parse :=
  match p.format with
  | [] => .error .outOfBounds
  | c :: format =>
    if isDigit c then do
      let (width, format) ← atoi 0 p.format
      .ok { p with width, format }
    else if c = ch '*' then do
      let (arg, va) ← vaArg p.va
      if arg.int.toInt < 0 then
        .ok { p with flags := { p.flags with left := true }, width := (-arg.int).toNat, format, va }
      else .ok { p with width := arg.int.toNat, format, va }
    else .ok p

def parsePrecisionValue (p : Parse) : Except Fault Parse :=
  match p.format with
  | [] => .error .outOfBounds
  | c :: format =>
    if isDigit c then do
      let (precision, format) ← atoi 0 p.format
      .ok { p with precision, format }
    else if c = ch '*' then do
      let (arg, va) ← vaArg p.va
      let precision := if 0 < arg.int.toInt then arg.int.toNat else 0
      .ok { p with precision, format, va }
    else .ok p

def parsePrecision (p : Parse) : Except Fault Parse :=
  match p.format with
  | [] => .error .outOfBounds
  | c :: format =>
    if c = ch '.' then
      parsePrecisionValue { p with flags := { p.flags with precision := true }, format }
    else .ok p

/-- The length field. `intmax_t` and `size_t` are as long as `long`. -/
def parseLength (p : Parse) : Except Fault Parse :=
  match p.format with
  | [] => .error .outOfBounds
  | c :: format =>
    if c = ch 'l' then
      match format with
      | [] => .error .outOfBounds
      | d :: format' =>
        if d = ch 'l' then
          let flags := { p.flags with long := true, longLong := true }
          .ok { p with flags, format := format' }
        else .ok { p with flags := { p.flags with long := true }, format }
    else if c = ch 'h' then
      match format with
      | [] => .error .outOfBounds
      | d :: format' =>
        if d = ch 'h' then
          let flags := { p.flags with short := true, char := true }
          .ok { p with flags, format := format' }
        else .ok { p with flags := { p.flags with short := true }, format }
    else if c = ch 'j' ∨ c = ch 'z' then
      .ok { p with flags := { p.flags with long := true }, format }
    else .ok p

/-- What comes between `%` and the specifier. -/
def parseDirective (format : List (BitVec 8)) (va : List Arg) : Except Fault Parse := do
  let (flags, format) ← parseFlags .none format
  let p ← parseWidth ⟨flags, 0, 0, format, va⟩
  let p ← parsePrecision p
  parseLength p

/-- The argument of `d` and `i`, sign-extended to 64 bits. -/
def signedArg (flags : Flags) (arg : Arg) : BitVec 64 :=
  if flags.longLong || flags.long then arg.word
  else if flags.char then (arg.word.setWidth 8).signExtend 64
  else if flags.short then (arg.word.setWidth 16).signExtend 64
  else (arg.word.setWidth 32).signExtend 64

def unsignedArg (flags : Flags) (arg : Arg) : BitVec 64 :=
  if flags.longLong || flags.long then arg.word
  else if flags.char then (arg.word.setWidth 8).setWidth 64
  else if flags.short then (arg.word.setWidth 16).setWidth 64
  else (arg.word.setWidth 32).setWidth 64

def isInteger (c : BitVec 8) : Bool :=
  c = ch 'd' || c = ch 'i' || c = ch 'u' || c = ch 'x' || c = ch 'X' || c = ch 'o' || c = ch 'b'

def isSigned (c : BitVec 8) : Bool := c = ch 'i' || c = ch 'd'

def specifierBase (c : BitVec 8) : Nat :=
  if c = ch 'x' ∨ c = ch 'X' then 16 else if c = ch 'o' then 8 else if c = ch 'b' then 2 else 10

def integerFlags (c : BitVec 8) (flags : Flags) : Flags :=
  let flags := if specifierBase c = 10 then { flags with hash := false } else flags
  let flags := if c = ch 'X' then { flags with uppercase := true } else flags
  let flags := if isSigned c then flags else { flags with plus := false, space := false }
  if flags.precision then { flags with zeropad := false } else flags

section Output
variable {β : Type} (out : OutFct β) (maxlen : Nat)

/-- The cases `d`, `i`, `u`, `x`, `X`, `o` and `b`. -/
def putInteger (s : Cursor β) (c : BitVec 8) (p : Parse) (arg : Arg) : Except Fault (Cursor β) :=
  let flags := integerFlags c p.flags
  let ntoa := if flags.longLong then ntoaLongLong out maxlen else ntoaLong out maxlen
  if isSigned c then
    let value := signedArg flags arg
    ntoa s (if 0 < value.toInt then value else 0 - value).toNat (value.toInt < 0) (specifierBase c)
      p.precision p.width flags
  else
    ntoa s (unsignedArg flags arg).toNat false (specifierBase c) p.precision p.width flags

/-- The case `c`. -/
def putChar (s : Cursor β) (p : Parse) : Except Fault (Cursor β × List Arg) := do
  let s ← putPadding out maxlen s (!p.flags.left) (p.width - 1)
  let (arg, va) ← vaArg p.va
  let s ← put out maxlen s (arg.word.setWidth 8)
  .ok (← putPadding out maxlen s p.flags.left (p.width - 1), va)

/-- The string output of the case `s`, which reads a character before it counts it. -/
def putString (limited : Bool) (s : Cursor β) : List (BitVec 8) → Nat → Except Fault (Cursor β)
  | [], _ => .error .outOfBounds
  | c :: p, precision =>
    if c = 0 ∨ (limited ∧ precision = 0) then .ok s
    else do putString limited (← put out maxlen s c) p (precision - 1)

/-- The length of a string that the padding of the case `s` counts with. -/
def stringWidth (p : Parse) (arg : Arg) : Except Fault Nat := do
  let maxsize := if p.precision ≠ 0 then p.precision else 2 ^ 64 - 1
  let l := u32 (← strnlenS arg.target maxsize)
  .ok (if p.flags.precision then (if l < p.precision then l else p.precision) else l)

/-- The case `s`. -/
def putStringArg (s : Cursor β) (p : Parse) (arg : Arg) : Except Fault (Cursor β) := do
  let l ← stringWidth p arg
  let s ← putPadding out maxlen s (!p.flags.left) (p.width - l)
  let s ← putString out maxlen p.flags.precision s arg.target p.precision
  putPadding out maxlen s p.flags.left (p.width - l)

/-- The case `p`; a pointer is as long as `long long`. -/
def putPointer (s : Cursor β) (p : Parse) (arg : Arg) : Except Fault (Cursor β) :=
  ntoaLongLong out maxlen s arg.word.toNat false 16 p.precision 16
    { p.flags with zeropad := true, uppercase := true }

def putSpecifier (s : Cursor β) (p : Parse) :
    Except Fault (Cursor β × List (BitVec 8) × List Arg) :=
  match p.format with
  | [] => .error .outOfBounds
  | c :: format =>
    if isInteger c then do
      let (arg, va) ← vaArg p.va
      .ok (← putInteger out maxlen s c p arg, format, va)
    else if c = ch 'c' then do
      let (s, va) ← putChar out maxlen s p
      .ok (s, format, va)
    else if c = ch 's' then do
      let (arg, va) ← vaArg p.va
      .ok (← putStringArg out maxlen s p arg, format, va)
    else if c = ch 'p' then do
      let (arg, va) ← vaArg p.va
      .ok (← putPointer out maxlen s p arg, format, va)
    else if c = ch '%' then do .ok (← put out maxlen s (ch '%'), format, p.va)
    else do .ok (← put out maxlen s c, format, p.va)

/-- The loop of `_vsnprintf`. -/
def vsnprintfLoop : Nat → Cursor β → List (BitVec 8) → List Arg → Except Fault (Cursor β)
  | 0, _, _, _ => .error .diverges
  | _ + 1, _, [], _ => .error .outOfBounds
  | fuel + 1, s, c :: format, va =>
    if c = 0 then .ok s
    else if c ≠ ch '%' then do vsnprintfLoop fuel (← put out maxlen s c) format va
    else do
      let p ← parseDirective format va
      let (s, format, va) ← putSpecifier out maxlen s p
      vsnprintfLoop fuel s format va

/-- `_vsnprintf` after its test of `buffer`. A turn of the loop takes a character at least. -/
def vsnprintfTo (buffer : β) (format : List (BitVec 8)) (va : List Arg) :
    Except Fault (β × Int) := do
  let s ← vsnprintfLoop out maxlen (format.length + 1) ⟨buffer, 0⟩ format va
  let last := if s.idx < maxlen then s.idx else sub64 maxlen 1
  .ok (← out 0 s.buffer last maxlen, (BitVec.ofNat 32 s.idx).toInt)

end Output

/-- `_vsnprintf`, where `none` is the null pointer. -/
def vsnprintf (out : OutFct β) (buffer : Option β) (maxlen : Nat) (format : List (BitVec 8))
    (va : List Arg) : Except Fault (Option β × Int) :=
  match buffer with
  | none => do .ok (none, (← vsnprintfTo outNull maxlen () format va).2)
  | some buffer => do
    let (buffer, ret) ← vsnprintfTo out maxlen buffer format va
    .ok (some buffer, ret)

def sizeMax : Nat := 2 ^ 64 - 1

/-- `snprintf_` and `vsnprintf_`. -/
def snprintf (buffer : Option (List (BitVec 8))) (count : Nat) (format : List (BitVec 8))
    (va : List Arg) : Except Fault (Option (List (BitVec 8)) × Int) :=
  vsnprintf outBuffer buffer count format va

def sprintf (buffer : Option (List (BitVec 8))) (format : List (BitVec 8)) (va : List Arg) :
    Except Fault (Option (List (BitVec 8)) × Int) :=
  vsnprintf outBuffer buffer sizeMax format va

/-- `printf_` and `vprintf_`, whose `buffer` is a local that is not written. -/
def printf (font : Nat → BitVec 64) (console : Console) (format : List (BitVec 8))
    (va : List Arg) : Except Fault (Console × Int) :=
  vsnprintfTo (outChar font) sizeMax console format va

def serialPrintf (lineStatus : Nat → BitVec 8) (wait : Nat) (port : Com1)
    (format : List (BitVec 8)) (va : List Arg) : Except Fault (Com1 × Int) :=
  vsnprintfTo (serialOutChar lineStatus wait) sizeMax port format va

end AdaOS.Printf
