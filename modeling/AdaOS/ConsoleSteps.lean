import AdaOS.Console

namespace AdaOS
set_option autoImplicit true

variable {fb : Framebuffer} {c : Console}

/-- The columns of the text area, of 16 pixels each. -/
def Framebuffer.columns (fb : Framebuffer) : Nat := fb.width / 16

def Framebuffer.rows (fb : Framebuffer) : Nat := fb.height / 16

/-- The pixels from one row of pixels to the next. -/
def Framebuffer.stride (fb : Framebuffer) : Nat := fb.pitch / 4

structure Framebuffer.Fits (fb : Framebuffer) : Prop where
  width_ge : 16 ≤ fb.width
  height_ge : 16 ≤ fb.height
  stride_ge : fb.width ≤ fb.stride
  size_lt : fb.pitch * fb.height < 2 ^ 32

namespace Framebuffer.Fits

theorem columns_pos (hf : fb.Fits) : 0 < fb.columns := Nat.div_pos hf.width_ge (by decide)

theorem rows_pos (hf : fb.Fits) : 0 < fb.rows := Nat.div_pos hf.height_ge (by decide)

theorem columns_le (fb : Framebuffer) : fb.columns * 16 ≤ fb.width := Nat.div_mul_le_self _ _

theorem rows_le (fb : Framebuffer) : fb.rows * 16 ≤ fb.height := Nat.div_mul_le_self _ _

theorem pixels_lt (hf : fb.Fits) : fb.stride * fb.height * 4 < 2 ^ 32 := by
  have hs : fb.stride * 4 ≤ fb.pitch := Nat.div_mul_le_self _ _
  have hle := Nat.mul_le_mul_right fb.height hs
  rw [Nat.mul_right_comm]
  exact Nat.lt_of_le_of_lt hle hf.size_lt

theorem rowEnd_le (hi : i < fb.rows) : (i + 1) * (16 * fb.stride) ≤ fb.stride * fb.height := by
  have hle : (i + 1) * 16 ≤ fb.height := Nat.le_trans (Nat.mul_le_mul_right 16 hi) (rows_le fb)
  calc (i + 1) * (16 * fb.stride) = fb.stride * ((i + 1) * 16) := by
        rw [← Nat.mul_assoc, Nat.mul_comm]
    _ ≤ fb.stride * fb.height := Nat.mul_le_mul_left _ hle

theorem block_le (hf : fb.Fits) : 16 * fb.width ≤ 16 * fb.stride :=
  Nat.mul_le_mul_left _ hf.stride_ge

theorem cleared_le (hf : fb.Fits) : 16 * fb.width * fb.rows ≤ fb.stride * fb.height := by
  calc 16 * fb.width * fb.rows = fb.width * (fb.rows * 16) := by
        rw [Nat.mul_comm 16, Nat.mul_assoc, Nat.mul_comm 16]
    _ ≤ fb.stride * fb.height := Nat.mul_le_mul hf.stride_ge (rows_le fb)

theorem stride_pos (hf : fb.Fits) : 0 < fb.stride := by
  have hw := hf.width_ge
  have hs := hf.stride_ge
  omega

theorem width_lt (hf : fb.Fits) : 64 * fb.width < 2 ^ 32 := by
  have hc := hf.cleared_le
  have hp := hf.pixels_lt
  have hle : 16 * fb.width * 1 ≤ 16 * fb.width * fb.rows := Nat.mul_le_mul_left _ hf.rows_pos
  omega

theorem stride_lt (hf : fb.Fits) : 64 * fb.stride < 2 ^ 32 := by
  have hr := rowEnd_le hf.rows_pos
  have hp := hf.pixels_lt
  omega

theorem height_lt (hf : fb.Fits) : 64 * fb.height < 2 ^ 32 := by
  have hle : 16 * fb.height ≤ fb.stride * fb.height :=
    Nat.mul_le_mul_right _ (Nat.le_trans hf.width_ge hf.stride_ge)
  have hp := hf.pixels_lt
  omega

/-- None of the screen constants overflows. -/
theorem screen (hf : fb.Fits) :
    calculateScreenConstants fb =
      { cursorXMax := fb.columns - 1
        cursorYMax := fb.rows - 1
        bytesPerLine := 64 * fb.width
        bytesPerScreen := 64 * fb.width * fb.rows
        height := fb.height
        width := fb.width
        pitch := fb.stride } := by
  have hw := hf.width_lt
  have hh := hf.height_lt
  have hs := hf.stride_lt
  have hc := hf.cleared_le
  have hp := hf.pixels_lt
  have hcol := hf.columns_pos
  have hrow := hf.rows_pos
  have hr := rows_le fb
  have hb : 64 * fb.width * fb.rows < 2 ^ 32 := by
    have he : 64 * fb.width * fb.rows = 4 * (16 * fb.width * fb.rows) := by
      rw [← Nat.mul_assoc, ← Nat.mul_assoc]
    omega
  have hcols : u32 (fb.width / (8 * fontSize) + 2 ^ 32 - 1) = fb.columns - 1 := by
    simp only [u32, fontSize, Framebuffer.columns] at *
    omega
  have hrows : u32 (fb.height / (8 * fontSize) + 2 ^ 32 - 1) = fb.rows - 1 := by
    simp only [u32, fontSize, Framebuffer.rows] at *
    omega
  have hline : u32 (fb.width * (8 * fontSize) * 4) = 64 * fb.width := by
    simp only [u32, fontSize]
    omega
  have hnext : u32 (fb.rows - 1 + 1) = fb.rows := by
    rw [Nat.sub_add_cancel hrow]
    exact u32_of_lt (by omega)
  have hwidth : u32 fb.width = fb.width := u32_of_lt (by omega)
  have hheight : u32 fb.height = fb.height := u32_of_lt (by omega)
  have hpitch : u32 (fb.pitch / 4) = fb.stride := u32_of_lt (show fb.stride < _ by omega)
  have hscreen : u32 (64 * fb.width * fb.rows) = 64 * fb.width * fb.rows := u32_of_lt hb
  simp only [calculateScreenConstants, hwidth, hheight, hpitch, hcols, hrows, hline, hnext,
    hscreen]

end Framebuffer.Fits

/-- A console on `fb` has its cursor in the text area. -/
structure Console.On (fb : Framebuffer) (c : Console) : Prop where
  screen : c.screen = calculateScreenConstants fb
  x_lt : c.cursorX < fb.columns
  y_lt : c.cursorY < fb.rows

/-- The pixels once `scroll` has moved the text up by a row. -/
def Framebuffer.scrolled (fb : Framebuffer) (m : Nat → BitVec 32) : Nat → BitVec 32 :=
  Raster.fill (Raster.shift m (16 * fb.stride) (16 * fb.width) 0 (fb.rows - 1)) 0
    ((fb.rows - 1) * (16 * fb.stride)) (16 * fb.width)

namespace Console

/-- What a routine leaves on a framebuffer it fits in: the routines below are these functions. -/
def scrolled (fb : Framebuffer) (c : Console) : Console :=
  serialWrite { c with pixels := fb.scrolled c.pixels } 0x0a

def newline (fb : Framebuffer) (c : Console) : Console :=
  if c.cursorY + 1 < fb.rows then
    serialWrite { c with cursorX := 0, cursorY := c.cursorY + 1 } 0x0a
  else { c.scrolled fb with cursorX := 0 }

def advanced (fb : Framebuffer) (c : Console) : Console :=
  if c.cursorX + 1 < fb.columns then { c with cursorX := c.cursorX + 1 } else c.newline fb

def cleared (fb : Framebuffer) (c : Console) : Console :=
  serialWriteString { c with
    cursorX := 0, cursorY := 0
    pixels := Raster.fill c.pixels 0 0 (16 * fb.width * fb.rows) } "Cleared VGA.\n"

/-- The column and the row of a pixel of the glyph at the cursor. -/
def glyphX (c : Console) (s : Subpixel) : Nat :=
  16 * c.cursorX + (2 * s.n + s.dx) + c.skew.toNat * (7 - s.i)

def glyphY (c : Console) (s : Subpixel) : Nat := 16 * c.cursorY + (2 * s.i + s.dy)

/-- One turn of the loops of `print_bitmap`: the pixel it sets, and to what. -/
def stroke (fb : Framebuffer) (bitmap : BitVec 64) (c : Console) (s : Subpixel) :
    Nat × BitVec 32 :=
  (Raster.index fb.stride (c.glyphX s) (c.glyphY s),
    if glyphBit bitmap s.i s.n then c.onColour else c.offColour)

def printed (fb : Framebuffer) (bitmap : BitVec 64) (c : Console) : Console :=
  { c with pixels := Raster.draw c.pixels (subpixels.map (c.stroke fb bitmap)) }

def putc (fb : Framebuffer) (font : Nat → BitVec 64) (c : Console) (ch : BitVec 16) : Console :=
  if ch = 0x0a then { c.newline fb with cursorX := 0 }
  else if ch = 0x0d then { c with cursorX := 0 }
  else
    let c := c.log (.read ch.toNat)
    if ch.toNat > 256 then c.log (.read 0)
    else
      let c := c.printed fb (font ch.toNat)
      (if ch.toNat < 128 then c.serialWrite (ch.truncate 8) else c).advanced fb

end Console

namespace Console.On

theorem size_eq (h : c.On fb) (hf : fb.Fits) : c.size = fb.stride * fb.height := by
  rw [size, h.screen, hf.screen]

theorem pitch_eq (h : c.On fb) (hf : fb.Fits) : c.screen.pitch = fb.stride := by
  rw [h.screen, hf.screen]

theorem cursorYMax (h : c.On fb) (hf : fb.Fits) : c.screen.cursorYMax = fb.rows - 1 := by
  rw [h.screen, hf.screen]

theorem cursorXMax (h : c.On fb) (hf : fb.Fits) : c.screen.cursorXMax = fb.columns - 1 := by
  rw [h.screen, hf.screen]

theorem rowPixels_eq (h : c.On fb) (hf : fb.Fits) : c.rowPixels = 16 * fb.width := by
  have hw := hf.width_lt
  rw [rowPixels, h.screen, hf.screen]
  simp only [u32, fontSize]
  omega

theorem rowStart_eq (h : c.On fb) (hf : fb.Fits) (hi : i < fb.rows) :
    c.rowStart i = i * (16 * fb.stride) := by
  have he := Framebuffer.Fits.rowEnd_le hi
  have hp := hf.pixels_lt
  have hm : i * 8 * fontSize * fb.stride = i * (16 * fb.stride) := by
    rw [Nat.mul_assoc i, Nat.mul_assoc]
    rfl
  rw [Nat.add_mul] at he
  rw [rowStart, h.screen, hf.screen, hm]
  exact u32_of_lt (by omega)

theorem memcpy_eq (h : c.On fb) (hf : fb.Fits) (hi : i + 1 < fb.rows) :
    c.memcpy (c.rowStart i) (c.rowStart (i + 1)) c.rowPixels =
      .ok { c with
        pixels := Raster.copy c.pixels (i * (16 * fb.stride)) ((i + 1) * (16 * fb.stride))
          (16 * fb.width) } := by
  have hb := hf.block_le
  have he := Framebuffer.Fits.rowEnd_le hi
  rw [h.rowStart_eq hf hi, h.rowStart_eq hf (Nat.lt_of_succ_lt hi), h.rowPixels_eq hf, memcpy,
    h.size_eq hf, if_pos]
  have hle : i * (16 * fb.stride) ≤ (i + 1) * (16 * fb.stride) :=
    Nat.mul_le_mul_right _ (Nat.le_succ i)
  rw [Nat.add_mul (i + 1)] at he
  omega

theorem scrollRows_eq (h : c.On fb) (hf : fb.Fits) (hi : i + n < fb.rows) :
    c.scrollRows i n =
      .ok { c with
        pixels := Raster.shift c.pixels (16 * fb.stride) (16 * fb.width) i n } := by
  induction n generalizing i c with
  | zero => rfl
  | succ n ih =>
    rw [scrollRows, bind_of_ok (h.memcpy_eq hf (by omega))]
    exact ih ⟨h.screen, h.x_lt, h.y_lt⟩ (by omega)

theorem scrollLine_eq (h : c.On fb) (hf : fb.Fits) : c.scrollLine = .ok (c.scrolled fb) := by
  have hlast : fb.rows - 1 < fb.rows := Nat.sub_lt hf.rows_pos Nat.one_pos
  have hb := hf.block_le
  have he := Framebuffer.Fits.rowEnd_le hlast
  rw [scrollLine, h.cursorYMax hf, bind_of_ok (h.scrollRows_eq hf (by omega))]
  let d : Console := { c with
    pixels := Raster.shift c.pixels (16 * fb.stride) (16 * fb.width) 0 (fb.rows - 1) }
  have hd : d.On fb := ⟨h.screen, h.x_lt, h.y_lt⟩
  have hset : d.memset (d.rowStart d.screen.cursorYMax) d.rowPixels =
      .ok { d with pixels := fb.scrolled c.pixels } := by
    rw [hd.cursorYMax hf, hd.rowStart_eq hf hlast, hd.rowPixels_eq hf, memset, hd.size_eq hf,
      if_pos]
    · rfl
    · rw [Nat.add_mul] at he
      omega
  rw [bind_of_ok hset]
  rfl

theorem scroll_one (c : Console) : c.scroll 1 = c.scrollLine := by
  rw [scroll]
  cases c.scrollLine <;> rfl

theorem nlCursor_eq (h : c.On fb) (hf : fb.Fits) : c.nlCursor = .ok (c.newline fb) := by
  have hy := h.y_lt
  have hr : 64 * fb.rows < 2 ^ 32 := by
    have hh := hf.height_lt
    have hle := Framebuffer.Fits.rows_le fb
    omega
  have hu : u32 (c.cursorY + 1) = c.cursorY + 1 := u32_of_lt (by omega)
  rw [nlCursor, newline, h.cursorYMax hf, hu]
  by_cases hlast : c.cursorY + 1 < fb.rows
  · rw [if_neg (by omega), if_pos hlast]
  · rw [if_pos (by omega), if_neg hlast, scroll_one, h.scrollLine_eq hf]
    rfl

theorem advanceCursor_eq (h : c.On fb) (hf : fb.Fits) :
    c.advanceCursor = .ok (c.advanced fb) := by
  have hx := h.x_lt
  have hw := hf.width_lt
  have hle := Framebuffer.Fits.columns_le fb
  have hu : u32 (c.cursorX + 1) = c.cursorX + 1 := u32_of_lt (by omega)
  rw [advanceCursor, advanced, h.cursorXMax hf, hu]
  by_cases hlast : c.cursorX + 1 < fb.columns
  · rw [if_neg (by omega), if_pos hlast]
  · rw [if_pos (by omega), if_neg hlast, h.nlCursor_eq hf]

theorem clear_eq (h : c.On fb) (hf : fb.Fits) : c.clear = .ok (c.cleared fb) := by
  have hc := hf.cleared_le
  have hb : c.screen.bytesPerScreen / 4 = 16 * fb.width * fb.rows := by
    have he : 64 * fb.width * fb.rows = 4 * (16 * fb.width * fb.rows) := by
      rw [← Nat.mul_assoc, ← Nat.mul_assoc]
    rw [h.screen, hf.screen]
    simp only [he]
    omega
  have hset : c.memset 0 (c.screen.bytesPerScreen / 4) =
      .ok { c with pixels := Raster.fill c.pixels 0 0 (16 * fb.width * fb.rows) } := by
    rw [hb, memset, h.size_eq hf, if_pos (by omega)]
  rw [clear, bind_of_ok hset]
  rfl

end Console.On

theorem mem_subpixels {s : Subpixel} :
    s ∈ subpixels ↔ s.i < 8 ∧ s.n < 8 ∧ s.dy < 2 ∧ s.dx < 2 := by
  simp only [subpixels, fontSize, List.mem_flatMap, List.mem_map, List.mem_range]
  constructor
  · rintro ⟨i, hi, n, hn, dy, hdy, dx, hdx, rfl⟩
    exact ⟨hi, hn, hdy, hdx⟩
  · rintro ⟨hi, hn, hdy, hdx⟩
    exact ⟨_, hi, _, hn, _, hdy, _, hdx, rfl⟩

namespace Console.On

theorem stroke_lt (h : c.On fb) (hf : fb.Fits) (hk : c.skew.toNat ≤ 2 * fb.stride)
    (bitmap : BitVec 64) (hs : s ∈ subpixels) :
    (c.stroke fb bitmap s).1 < fb.stride * fb.height := by
  obtain ⟨hi, hn, hdy, hdx⟩ := mem_subpixels.1 hs
  have hx := h.x_lt
  have hy := h.y_lt
  have hcols := Framebuffer.Fits.columns_le fb
  have hrows := Framebuffer.Fits.rows_le fb
  have hst := hf.stride_ge
  have hskew : c.skew.toNat * (7 - s.i) ≤ 2 * fb.stride * (7 - s.i) := Nat.mul_le_mul_right _ hk
  have hX : c.glyphX s < fb.stride * (1 + 2 * (7 - s.i)) := by
    rw [Nat.mul_add, Nat.mul_one, ← Nat.mul_assoc, Nat.mul_comm fb.stride 2, glyphX]
    omega
  have hY : c.glyphY s + (1 + 2 * (7 - s.i)) ≤ fb.height := by
    rw [glyphY]
    omega
  calc (c.stroke fb bitmap s).1 = c.glyphY s * fb.stride + c.glyphX s := rfl
    _ < c.glyphY s * fb.stride + fb.stride * (1 + 2 * (7 - s.i)) := Nat.add_lt_add_left hX _
    _ = fb.stride * (c.glyphY s + (1 + 2 * (7 - s.i))) := by
        rw [Nat.mul_comm, ← Nat.mul_add]
    _ ≤ fb.stride * fb.height := Nat.mul_le_mul_left _ hY

theorem calculateX_eq (h : c.On fb) (hf : fb.Fits) : c.calculateX = 16 * c.cursorX := by
  have hx := h.x_lt
  have hw := hf.width_lt
  have hle := Framebuffer.Fits.columns_le fb
  simp only [calculateX, u32, fontSize]
  omega

theorem calculateY_eq (h : c.On fb) (hf : fb.Fits) : c.calculateY = 16 * c.cursorY := by
  have hy := h.y_lt
  have hh := hf.height_lt
  have hle := Framebuffer.Fits.rows_le fb
  simp only [calculateY, u32, fontSize]
  omega

theorem drawSubpixel_eq (h : c.On fb) (hf : fb.Fits) (hk : c.skew.toNat ≤ 2 * fb.stride)
    (hs : s ∈ subpixels) :
    drawSubpixel bitmap (16 * c.cursorX) (16 * c.cursorY) c s =
      .ok { c with
        pixels := Function.update c.pixels (c.stroke fb bitmap s).1
          (c.stroke fb bitmap s).2 } := by
  have hlt := h.stroke_lt hf hk bitmap hs
  have hp := hf.pixels_lt
  have hidx : (c.stroke fb bitmap s).1 = c.glyphY s * fb.stride + c.glyphX s := rfl
  have hY : c.glyphY s ≤ c.glyphY s * fb.stride :=
    Nat.le_mul_of_pos_right _ hf.stride_pos
  have hx : u32 (16 * c.cursorX + s.n * fontSize + s.dx + c.skew.toNat * (7 - s.i)) =
      c.glyphX s := by
    have he : 16 * c.cursorX + s.n * fontSize + s.dx + c.skew.toNat * (7 - s.i) =
        c.glyphX s := by
      rw [glyphX, fontSize]
      omega
    rw [he]
    exact u32_of_lt (by omega)
  have hy : u32 (16 * c.cursorY + s.i * fontSize + s.dy) = c.glyphY s := by
    have he : 16 * c.cursorY + s.i * fontSize + s.dy = c.glyphY s := by
      rw [glyphY, fontSize]
      omega
    rw [he]
    exact u32_of_lt (by omega)
  have hi : u32 (c.glyphY s * fb.stride + c.glyphX s) = (c.stroke fb bitmap s).1 := by
    rw [hidx]
    exact u32_of_lt (by omega)
  simp only [drawSubpixel, hx, hy, h.pitch_eq hf, hi, setPixel, h.size_eq hf, if_pos hlt]
  rfl

theorem drawSubpixels_eq {l : List Subpixel} (hf : fb.Fits) (hl : ∀ s ∈ l, s ∈ subpixels)
    (h : c.On fb) (hk : c.skew.toNat ≤ 2 * fb.stride) :
    l.foldlM (drawSubpixel bitmap (16 * c.cursorX) (16 * c.cursorY)) c =
      .ok { c with pixels := Raster.draw c.pixels (l.map (c.stroke fb bitmap)) } := by
  induction l generalizing c with
  | nil => rfl
  | cons s l ih =>
    let d : Console := { c with
      pixels := Function.update c.pixels (c.stroke fb bitmap s).1 (c.stroke fb bitmap s).2 }
    have hd : d.On fb := ⟨h.screen, h.x_lt, h.y_lt⟩
    rw [List.foldlM_cons, bind_of_ok (h.drawSubpixel_eq hf hk (hl s (.head _)))]
    exact ih (fun s hs => hl s (.tail _ hs)) hd hk

theorem printBitmap_eq (h : c.On fb) (hf : fb.Fits) (hk : c.skew.toNat ≤ 2 * fb.stride) :
    c.printBitmap bitmap c.calculateX c.calculateY = .ok (c.printed fb bitmap) := by
  rw [printBitmap, h.calculateX_eq hf, h.calculateY_eq hf]
  exact drawSubpixels_eq hf (fun _ hs => hs) h hk

theorem scrolled (h : c.On fb) : (c.scrolled fb).On fb := ⟨h.screen, h.x_lt, h.y_lt⟩

theorem home (h : c.On fb) : Console.On fb { c with cursorX := 0 } :=
  ⟨h.screen, Nat.zero_lt_of_lt h.x_lt, h.y_lt⟩

theorem newline (h : c.On fb) : (c.newline fb).On fb := by
  rw [Console.newline]
  split_ifs with hy
  · exact ⟨h.screen, Nat.zero_lt_of_lt h.x_lt, hy⟩
  · exact h.scrolled.home

theorem advanced (h : c.On fb) : (c.advanced fb).On fb := by
  rw [Console.advanced]
  split_ifs with hx
  · exact ⟨h.screen, hx, h.y_lt⟩
  · exact h.newline

theorem printed (h : c.On fb) : (c.printed fb bitmap).On fb := ⟨h.screen, h.x_lt, h.y_lt⟩

theorem log (h : c.On fb) (e : ConsoleEvent) : (c.log e).On fb := ⟨h.screen, h.x_lt, h.y_lt⟩

theorem serialWrite (h : c.On fb) (byte : BitVec 8) : (c.serialWrite byte).On fb := h.log _

theorem serialWriteString (h : c.On fb) (s : String) : (c.serialWriteString s).On fb := by
  rw [Console.serialWriteString]
  induction s.toList generalizing c with
  | nil => exact h
  | cons ch l ih => exact ih (h.serialWrite _)

theorem cleared (h : c.On fb) (hf : fb.Fits) : (c.cleared fb).On fb := by
  have hd : Console.On fb { c with
      cursorX := 0, cursorY := 0
      pixels := Raster.fill c.pixels 0 0 (16 * fb.width * fb.rows) } :=
    ⟨h.screen, hf.columns_pos, hf.rows_pos⟩
  exact hd.serialWriteString _

theorem cursorGoto (h : c.On fb) (hf : fb.Fits) (x y : Nat) : (c.cursorGoto x y).On fb := by
  have hcols := hf.columns_pos
  have hrows := hf.rows_pos
  rw [Console.cursorGoto, h.cursorXMax hf, h.cursorYMax hf]
  split_ifs with hxy
  · exact h
  · exact ⟨h.screen, by dsimp only; omega, by dsimp only; omega⟩

theorem putc (h : c.On fb) (ch : BitVec 16) : (c.putc fb font ch).On fb := by
  have hlog := h.log (.read ch.toNat)
  simp only [Console.putc]
  split_ifs
  · exact h.newline.home
  · exact h.home
  · exact hlog.log _
  · exact (hlog.printed.serialWrite _).advanced
  · exact hlog.printed.advanced

theorem kPutc_eq (h : c.On fb) (hf : fb.Fits) (hk : c.skew.toNat ≤ 2 * fb.stride)
    (ch : BitVec 16) : c.kPutc font ch = .ok (c.putc fb font ch) := by
  have hlog := h.log (.read ch.toNat)
  simp only [kPutc, Console.putc]
  split_ifs with hnl hcr hbig hserial
  · rw [h.nlCursor_eq hf]
    rfl
  · rfl
  · rfl
  · rw [bind_of_ok (hlog.printBitmap_eq hf hk)]
    exact (hlog.printed.serialWrite _).advanceCursor_eq hf
  · rw [bind_of_ok (hlog.printBitmap_eq hf hk)]
    exact hlog.printed.advanceCursor_eq hf

end Console.On

/-- The bytes of a string that starts at index `i`, as far as a byte can count. -/
def textFrom (s : Nat → BitVec 8) (i : Nat) : List (BitVec 8) :=
  ((List.range' i (256 - i)).map s).takeWhile (· ≠ 0)

theorem textFrom_eq (hi : i < 256) :
    textFrom s i = if s i = 0 then [] else s i :: textFrom s (i + 1) := by
  have hr : List.range' i (256 - i) = i :: List.range' (i + 1) (256 - (i + 1)) := by
    have hn : 256 - i = 256 - (i + 1) + 1 := by omega
    rw [hn]
    rfl
  rw [textFrom, hr, List.map_cons, List.takeWhile_cons, textFrom]
  by_cases h0 : s i = 0
  · rw [if_pos h0, if_neg (by simp [h0])]
  · rw [if_neg h0, if_pos (decide_eq_true h0)]

/-- A terminated string is put character by character. -/
theorem kPutsFrom_eq (font : Nat → BitVec 64) (hi : i ≤ e) (he : e < 256) (h0 : s e = 0)
    (hfuel : e - i < fuel) (c : Console) :
    Console.kPutsFrom font s fuel i c =
      (textFrom s i).foldlM (fun c b => c.kPutc font (b.signExtend 16)) c := by
  induction fuel generalizing i c with
  | zero => omega
  | succ fuel ih =>
    rw [Console.kPutsFrom, textFrom_eq (by omega)]
    by_cases hs : s i = 0
    · rw [if_pos hs, if_pos hs]
      rfl
    · have hne : i ≠ e := fun hie => hs (hie ▸ h0)
      have hmod : (i + 1) % 256 = i + 1 := Nat.mod_eq_of_lt (by omega)
      have hrest := ih (i := i + 1) (by omega) (by omega)
      rw [if_neg hs, if_neg hs, hmod, List.foldlM_cons]
      by_cases hnl : s i = 0x0a
      · rw [if_pos hnl, hnl, Console.kPutc, if_pos (by decide)]
        cases c.nlCursor with
        | error f => rfl
        | ok d => exact hrest _
      · rw [if_neg hnl]
        by_cases hcr : s i = 0x0d
        · rw [if_pos hcr, hcr, Console.kPutc, if_neg (by decide), if_pos (by decide)]
          exact hrest _
        · rw [if_neg hcr]
          cases c.kPutc font ((s i).signExtend 16) with
          | error f => rfl
          | ok d => exact hrest d

theorem kPuts_eq (font : Nat → BitVec 64) (ht : ∃ i < 256, s i = 0) (c : Console) :
    c.kPuts font s = (textFrom s 0).foldlM (fun c b => c.kPutc font (b.signExtend 16)) c := by
  obtain ⟨e, he, h0⟩ := ht
  exact kPutsFrom_eq font (Nat.zero_le e) he h0 he c

end AdaOS
