import AdaOS.ConsoleSteps
import AdaOS.TextGrid

namespace AdaOS
set_option autoImplicit true

/-- What a cell of the text area shows. -/
structure Glyph where
  bitmap : BitVec 64
  on : BitVec 32
  off : BitVec 32

/-- The pixel at column `x` of row `y` of a cell of 16 by 16 pixels. -/
def Glyph.pixel (g : Glyph) (x y : Nat) : BitVec 32 :=
  if glyphBit g.bitmap (y / 2) (x / 2) then g.on else g.off

/-- The pixel at column `x` of row `y` of a page; a blank is black. -/
def render (g : TextGrid Glyph) (x y : Nat) : BitVec 32 :=
  match g.cell (x / 16) (y / 16) with
  | none => 0
  | some v => v.pixel (x % 16) (y % 16)

/-- The console as a page of glyphs. -/
structure TextConsole where
  grid : TextGrid Glyph
  on : BitVec 32
  off : BitVec 32

def TextConsole.boot : TextConsole := ⟨.blank, 0xffffff, 0x000000⟩

/-- The calls that write text, with the arguments they are meant for. -/
inductive TextCall where
  | kPutc (ch : BitVec 16) (h : ch.toNat < 128)
  | kPuts (s : Nat → BitVec 8) (h : ∃ i < 256, s i = 0 ∧ ∀ j < i, (s j).toNat < 128)
  | cursorGoto (x y : BitVec 32)
  | scroll
  | clear
  | setTextColour (colour : BitVec 32)
  | setTextBgColour (colour : BitVec 32)

def TextCall.call : TextCall → ConsoleCall
  | kPutc ch _ => .kPutc ch
  | kPuts s _ => .kPuts s
  | cursorGoto x y => .cursorGoto x y
  | scroll => .scroll 1
  | clear => .clear
  | setTextColour colour => .setTextColour colour
  | setTextBgColour colour => .setTextBgColour colour

section Text
variable (fb : Framebuffer) (font : Nat → BitVec 64)

def TextConsole.putc (t : TextConsole) (ch : BitVec 16) : TextConsole :=
  if ch = 0x0a then { t with grid := t.grid.newline fb.rows }
  else if ch = 0x0d then { t with grid := t.grid.home }
  else
    let v : Glyph := ⟨font ch.toNat, t.on, t.off⟩
    { t with grid := (t.grid.write v).advance fb.columns fb.rows }

def TextCall.onPage (t : TextConsole) : TextCall → TextConsole
  | kPutc ch _ => t.putc fb font ch
  | kPuts s _ => (textFrom s 0).foldl (fun t b => t.putc fb font (b.setWidth 16)) t
  | cursorGoto x y => { t with grid := t.grid.goto fb.columns fb.rows x.toNat y.toNat }
  | scroll => { t with grid := t.grid.scroll fb.rows }
  | clear => { t with grid := .blank }
  | setTextColour colour => { t with on := colour }
  | setTextBgColour colour => { t with off := colour }

/-- The page after a run of calls from boot. -/
def textRun (calls : List TextCall) : TextConsole :=
  calls.foldl (TextCall.onPage fb font) TextConsole.boot

/-- After a run of calls the text area shows the page. -/
def ShowsText (calls : List TextCall) : Prop :=
  ∃ c, (Console.boot fb).run font (calls.map TextCall.call) = .ok c ∧
    ∀ x < 16 * fb.columns, ∀ y < 16 * fb.rows,
      c.pixels (Raster.index fb.stride x y) = render (textRun fb font calls).grid x y

end Text

/-- The console and the page agree on all but the last cell being blank. -/
structure Pictures (fb : Framebuffer) (c : Console) (t : TextConsole) : Prop where
  on : c.On fb
  skew : c.skew = 0
  x : c.cursorX = t.grid.x
  y : c.cursorY = t.grid.y
  onColour : c.onColour = t.on
  offColour : c.offColour = t.off
  pixels : ∀ x < 16 * fb.columns, ∀ y < 16 * fb.rows,
    c.pixels (Raster.index fb.stride x y) = render t.grid x y

variable {fb : Framebuffer} {c : Console} {t : TextConsole}

theorem Framebuffer.Fits.x_lt (hf : fb.Fits) (hx : x < 16 * fb.columns) : x < fb.stride := by
  have hle := columns_le fb
  have hst := hf.stride_ge
  omega

theorem Framebuffer.scrolled_of_lt (hf : fb.Fits) (hx : x < fb.stride) (hy : y < 16 * fb.rows)
    (hin : Raster.index fb.stride x (y % 16) < 16 * fb.width) (m : Nat → BitVec 32) :
    fb.scrolled m (Raster.index fb.stride x y) =
      if y / 16 + 1 < fb.rows then m (Raster.index fb.stride x (y + 16)) else 0 := by
  have hb := hf.block_le
  have hdiv := Raster.index_div hx 16 y
  have hmod := Raster.index_mod hx (show 0 < 16 by decide) y
  have hrow : y / 16 < fb.rows := by omega
  rw [scrolled]
  by_cases hlast : y / 16 + 1 < fb.rows
  · rw [Raster.fill_of_outside, Raster.shift_apply hb, hdiv, hmod, if_pos ⟨by omega, by omega, hin⟩,
      if_pos hlast, Raster.index_add]
    rw [Raster.mem_block_iff hb, hdiv]
    omega
  · rw [Raster.fill_of_inside, if_neg hlast]
    rw [Raster.mem_block_iff hb, hdiv, hmod]
    exact ⟨by omega, hin⟩

theorem Framebuffer.scrolled_of_ge (hf : fb.Fits) (hx : x < fb.stride)
    (hout : 16 * fb.width ≤ Raster.index fb.stride x (y % 16)) (m : Nat → BitVec 32) :
    fb.scrolled m (Raster.index fb.stride x y) = m (Raster.index fb.stride x y) := by
  have hb := hf.block_le
  have hmod := Raster.index_mod hx (show 0 < 16 by decide) y
  rw [scrolled, Raster.fill_of_outside, Raster.shift_apply hb, if_neg]
  · rw [hmod]
    omega
  · rw [Raster.mem_block_iff hb, hmod]
    omega

theorem Console.On.printed_pixel (h : c.On fb) (hf : fb.Fits) (hskew : c.skew = 0)
    (hx : x < 16 * fb.columns) (bitmap : BitVec 64) (y : Nat) :
    (c.printed fb bitmap).pixels (Raster.index fb.stride x y) =
      if x / 16 = c.cursorX ∧ y / 16 = c.cursorY then
        (Glyph.mk bitmap c.onColour c.offColour).pixel (x % 16) (y % 16)
      else c.pixels (Raster.index fb.stride x y) := by
  have hglyphX (s : Subpixel) : c.glyphX s = 16 * c.cursorX + (2 * s.n + s.dx) := by
    have hzero : BitVec.toNat (0 : BitVec 8) = 0 := rfl
    rw [Console.glyphX, hskew, hzero, Nat.zero_mul, Nat.add_zero]
  -- A stroke at this pixel is the one turn of the loops that belongs to it.
  have hat (s : Subpixel) (hs : s ∈ subpixels)
      (he : (c.stroke fb bitmap s).1 = Raster.index fb.stride x y) :
      x / 16 = c.cursorX ∧ y / 16 = c.cursorY ∧ s.n = x % 16 / 2 ∧ s.i = y % 16 / 2 := by
    obtain ⟨hi, hn, hdy, hdx⟩ := mem_subpixels.1 hs
    have hlt : c.glyphX s < 16 * fb.columns := by
      have hcol := h.x_lt
      rw [hglyphX]
      omega
    obtain ⟨hX, hY⟩ := Raster.index_inj (hf.x_lt hlt) (hf.x_lt hx) he
    rw [hglyphX] at hX
    rw [Console.glyphY] at hY
    omega
  by_cases hin : x / 16 = c.cursorX ∧ y / 16 = c.cursorY
  · rw [if_pos hin]
    apply Raster.draw_of_mem
    · let s : Subpixel := ⟨y % 16 / 2, x % 16 / 2, y % 2, x % 2⟩
      have hs : s ∈ subpixels := by
        apply mem_subpixels.2
        refine ⟨?_, ?_, ?_, ?_⟩ <;> dsimp only [s] <;> omega
      have hX : c.glyphX s = x := by
        rw [hglyphX]
        dsimp only [s]
        omega
      have hY : c.glyphY s = y := by
        rw [Console.glyphY]
        dsimp only [s]
        omega
      have hstroke : c.stroke fb bitmap s = (Raster.index fb.stride x y,
          (Glyph.mk bitmap c.onColour c.offColour).pixel (x % 16) (y % 16)) := by
        rw [Console.stroke, hX, hY]
        rfl
      exact List.mem_map.2 ⟨s, hs, hstroke⟩
    · intro p hp he
      obtain ⟨s, hs, rfl⟩ := List.mem_map.1 hp
      obtain ⟨-, -, hn, hi⟩ := hat s hs he
      rw [Console.stroke, hn, hi]
      rfl
  · rw [if_neg hin]
    apply Raster.draw_of_not_mem
    intro p hp he
    obtain ⟨s, hs, rfl⟩ := List.mem_map.1 hp
    obtain ⟨hX, hY, -⟩ := hat s hs he
    exact hin ⟨hX, hY⟩

theorem render_scroll (g : TextGrid Glyph) (x y : Nat) :
    render (g.scroll rows) x y = if y / 16 + 1 < rows then render g x (y + 16) else 0 := by
  have hdiv : (y + 16) / 16 = y / 16 + 1 := Nat.add_div_right y (by decide)
  have hmod : (y + 16) % 16 = y % 16 := Nat.add_mod_right y 16
  simp only [render, TextGrid.scroll, hdiv, hmod]
  split_ifs <;> rfl

theorem render_write (g : TextGrid Glyph) (v : Glyph) (x y : Nat) :
    render (g.write v) x y =
      if x / 16 = g.x ∧ y / 16 = g.y then v.pixel (x % 16) (y % 16) else render g x y := by
  simp only [render, TextGrid.write]
  split_ifs <;> rfl

/-- The byte counts of `scroll` and `clear` reach all of the text area they have to. -/
structure Framebuffer.Reached (fb : Framebuffer) : Prop where
  scroll : 15 * fb.stride + 16 * fb.columns ≤ 16 * fb.width
  clear : ∀ x < 16 * fb.columns, ∀ y < 16 * fb.rows,
    ¬(x / 16 = fb.columns - 1 ∧ y / 16 = fb.rows - 1) →
      Raster.index fb.stride x y < 16 * fb.width * fb.rows

theorem Console.serialWriteString_eq (c : Console) (s : String) :
    ∃ tr, c.serialWriteString s = { c with trace := tr } := by
  rw [Console.serialWriteString]
  induction s.toList generalizing c with
  | nil => exact ⟨c.trace, rfl⟩
  | cons ch l ih => exact ih _

theorem Console.cleared_eq (fb : Framebuffer) (c : Console) :
    ∃ tr, c.cleared fb = { c with
      cursorX := 0, cursorY := 0, trace := tr
      pixels := Raster.fill c.pixels 0 0 (16 * fb.width * fb.rows) } :=
  Console.serialWriteString_eq _ _

namespace Pictures

theorem skew_le (h : Pictures fb c t) : c.skew.toNat ≤ 2 * fb.stride := by
  rw [h.skew]
  exact Nat.zero_le _

theorem boot (hf : fb.Fits) (hz : ∀ a, fb.pixels a = 0) :
    Pictures fb (Console.boot fb) TextConsole.boot where
  on := ⟨rfl, hf.columns_pos, hf.rows_pos⟩
  skew := rfl
  x := rfl
  y := rfl
  onColour := rfl
  offColour := rfl
  pixels := fun _ _ _ _ => hz _

theorem log (h : Pictures fb c t) (e : ConsoleEvent) : Pictures fb (c.log e) t :=
  ⟨h.on.log e, h.skew, h.x, h.y, h.onColour, h.offColour, h.pixels⟩

theorem home (h : Pictures fb c t) :
    Pictures fb { c with cursorX := 0 } { t with grid := t.grid.home } :=
  ⟨h.on.home, h.skew, rfl, h.y, h.onColour, h.offColour, h.pixels⟩

theorem setTextColour (h : Pictures fb c t) (colour : BitVec 32) :
    Pictures fb (c.setTextColour colour) { t with on := colour } :=
  ⟨⟨h.on.screen, h.on.x_lt, h.on.y_lt⟩, h.skew, h.x, h.y, rfl, h.offColour, h.pixels⟩

theorem setTextBgColour (h : Pictures fb c t) (colour : BitVec 32) :
    Pictures fb (c.setTextBgColour colour) { t with off := colour } :=
  ⟨⟨h.on.screen, h.on.x_lt, h.on.y_lt⟩, h.skew, h.x, h.y, h.onColour, rfl, h.pixels⟩

theorem cursorGoto (h : Pictures fb c t) (hf : fb.Fits) (x y : Nat) :
    Pictures fb (c.cursorGoto x y) { t with grid := t.grid.goto fb.columns fb.rows x y } := by
  have hcols := hf.columns_pos
  have hrows := hf.rows_pos
  have hon := h.on.cursorGoto hf x y
  rw [Console.cursorGoto, h.on.cursorXMax hf, h.on.cursorYMax hf] at hon ⊢
  rw [TextGrid.goto]
  by_cases hin : x < fb.columns ∧ y < fb.rows
  · rw [if_neg (by omega)] at hon ⊢
    rw [if_pos hin]
    exact ⟨hon, h.skew, rfl, rfl, h.onColour, h.offColour, h.pixels⟩
  · rw [if_pos (by omega), if_neg hin]
    exact h

theorem printed (h : Pictures fb c t) (hf : fb.Fits) (bitmap : BitVec 64) :
    Pictures fb (c.printed fb bitmap)
      { t with grid := t.grid.write ⟨bitmap, t.on, t.off⟩ } where
  on := h.on.printed
  skew := h.skew
  x := h.x
  y := h.y
  onColour := h.onColour
  offColour := h.offColour
  pixels := by
    intro x hx y hy
    rw [h.on.printed_pixel hf h.skew hx, render_write, h.x, h.y, h.onColour, h.offColour,
      h.pixels x hx y hy]

theorem scrolled (h : Pictures fb c t) (hf : fb.Fits) (hr : fb.Reached) :
    Pictures fb (c.scrolled fb) { t with grid := t.grid.scroll fb.rows } where
  on := h.on.scrolled
  skew := h.skew
  x := h.x
  y := h.y
  onColour := h.onColour
  offColour := h.offColour
  pixels := by
    intro x hx y hy
    have hin : Raster.index fb.stride x (y % 16) < 16 * fb.width := by
      have hmod : y % 16 * fb.stride ≤ 15 * fb.stride := Nat.mul_le_mul_right _ (by omega)
      have hscroll := hr.scroll
      rw [Raster.index]
      omega
    rw [render_scroll]
    refine (Framebuffer.scrolled_of_lt hf (hf.x_lt hx) hy hin c.pixels).trans ?_
    split_ifs with hlast
    · exact h.pixels x hx (y + 16) (by omega)
    · rfl

theorem newline (h : Pictures fb c t) (hf : fb.Fits) (hr : fb.Reached) :
    Pictures fb (c.newline fb) { t with grid := t.grid.newline fb.rows } := by
  have hon := h.on.newline
  rw [Console.newline] at hon ⊢
  rw [TextGrid.newline, ← h.y]
  by_cases hlast : c.cursorY + 1 < fb.rows
  · rw [if_pos hlast] at hon ⊢
    rw [if_pos hlast]
    exact ⟨hon, h.skew, rfl, rfl, h.onColour, h.offColour, h.pixels⟩
  · rw [if_neg hlast, if_neg hlast]
    exact (h.scrolled hf hr).home

theorem advanced (h : Pictures fb c t) (hf : fb.Fits) (hr : fb.Reached) :
    Pictures fb (c.advanced fb) { t with grid := t.grid.advance fb.columns fb.rows } := by
  have hon := h.on.advanced
  rw [Console.advanced] at hon ⊢
  rw [TextGrid.advance, ← h.x]
  by_cases hlast : c.cursorX + 1 < fb.columns
  · rw [if_pos hlast] at hon ⊢
    rw [if_pos hlast]
    exact ⟨hon, h.skew, rfl, h.y, h.onColour, h.offColour, h.pixels⟩
  · rw [if_neg hlast, if_neg hlast]
    exact h.newline hf hr

theorem cleared (h : Pictures fb c t) (hf : fb.Fits) (hr : fb.Reached)
    (hcorner : t.grid.CornerBlank fb.columns fb.rows) :
    Pictures fb (c.cleared fb) { t with grid := .blank } := by
  have hon := h.on.cleared hf
  obtain ⟨tr, htr⟩ := Console.cleared_eq fb c
  rw [htr] at hon ⊢
  refine ⟨hon, h.skew, rfl, rfl, h.onColour, h.offColour, ?_⟩
  intro x hx y hy
  change Raster.fill c.pixels 0 0 _ _ = 0
  by_cases hin : Raster.index fb.stride x y < 16 * fb.width * fb.rows
  · exact Raster.fill_of_inside ⟨Nat.zero_le _, by omega⟩
  · have hlast : x / 16 = fb.columns - 1 ∧ y / 16 = fb.rows - 1 := by
      by_contra hne
      exact hin (hr.clear x hx y hy hne)
    rw [Raster.fill_of_outside (by omega), h.pixels x hx y hy, render, hlast.1, hlast.2, hcorner]

theorem putc (h : Pictures fb c t) (hf : fb.Fits) (hr : fb.Reached) (font : Nat → BitVec 64)
    (hch : ch.toNat < 128) : Pictures fb (c.putc fb font ch) (t.putc fb font ch) := by
  have hlog := h.log (.read ch.toNat)
  simp only [Console.putc, TextConsole.putc]
  by_cases hnl : ch = 0x0a
  · have hhome : t.grid.newline fb.rows = (t.grid.newline fb.rows).home := by
      rw [TextGrid.newline]
      split_ifs <;> rfl
    rw [if_pos hnl, if_pos hnl, hhome]
    exact (h.newline hf hr).home
  · rw [if_neg hnl, if_neg hnl]
    by_cases hcr : ch = 0x0d
    · rw [if_pos hcr, if_pos hcr]
      exact h.home
    · rw [if_neg hcr, if_neg hcr, if_neg (by omega), if_pos hch]
      exact ((hlog.printed hf _).log _).advanced hf hr

end Pictures

/-- The text area shows the page, whose last cell is blank. -/
structure Shows (fb : Framebuffer) (c : Console) (t : TextConsole) : Prop
    extends Pictures fb c t where
  corner : t.grid.CornerBlank fb.columns fb.rows

namespace Shows

theorem putc (h : Shows fb c t) (hf : fb.Fits) (hr : fb.Reached) (font : Nat → BitVec 64)
    (hch : ch.toNat < 128) : Shows fb (c.putc fb font ch) (t.putc fb font ch) where
  toPictures := h.toPictures.putc hf hr font hch
  corner := by
    rw [TextConsole.putc]
    split_ifs
    · exact h.corner.newline hf.rows_pos
    · exact h.corner
    · exact h.corner.put (h.x ▸ h.on.x_lt) (h.y ▸ h.on.y_lt) _

end Shows

end AdaOS
