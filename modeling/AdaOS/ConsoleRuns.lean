import AdaOS.ConsoleGrid

namespace AdaOS
set_option autoImplicit true

variable {fb : Framebuffer} {c : Console} {t : TextConsole}

theorem forall_mem_textFrom {P : BitVec 8 → Prop} (hi : i ≤ e) (he : e < 256) (h0 : s e = 0)
    (hP : ∀ j < e, P (s j)) : ∀ b ∈ textFrom s i, P b := by
  induction hn : e - i generalizing i with
  | zero =>
    have hie : i = e := by omega
    rw [textFrom_eq (by omega), hie, if_pos h0]
    exact List.forall_mem_nil _
  | succ n ih =>
    rw [textFrom_eq (by omega)]
    split_ifs
    · exact List.forall_mem_nil _
    · exact List.forall_mem_cons.2 ⟨hP i (by omega), ih (by omega) (by omega)⟩

theorem signExtend_of_lt {b : BitVec 8} (hb : b.toNat < 128) : b.signExtend 16 = b.setWidth 16 :=
  BitVec.signExtend_eq_setWidth_of_msb_false (BitVec.msb_eq_false_iff_two_mul_lt.2 (by omega))

namespace Shows

theorem kPutcs (h : Shows fb c t) (hf : fb.Fits) (hr : fb.Reached) (font : Nat → BitVec 64)
    {text : List (BitVec 8)} (ht : ∀ b ∈ text, b.toNat < 128) :
    ∃ d, text.foldlM (fun c b => c.kPutc font (b.signExtend 16)) c = .ok d ∧
      Shows fb d (text.foldl (fun t b => t.putc fb font (b.setWidth 16)) t) := by
  induction text generalizing c t with
  | nil => exact ⟨c, rfl, h⟩
  | cons b text ih =>
    have hb := ht b (.head _)
    have hch : (b.setWidth 16).toNat < 128 := by
      rw [BitVec.toNat_setWidth]
      exact Nat.lt_of_le_of_lt (Nat.mod_le _ _) hb
    rw [List.foldlM_cons, signExtend_of_lt hb, bind_of_ok (h.on.kPutc_eq hf h.skew_le _)]
    exact ih (h.putc hf hr font hch) fun b hb => ht b (.tail _ hb)

/-- Every call does to the text area what it does to the page. -/
theorem runCall (h : Shows fb c t) (hf : fb.Fits) (hr : fb.Reached) (font : Nat → BitVec 64)
    (call : TextCall) :
    ∃ d, ConsoleCall.run font c call.call = .ok d ∧ Shows fb d (call.onPage fb font t) := by
  cases call with
  | kPutc ch hch => exact ⟨_, h.on.kPutc_eq hf h.skew_le ch, h.putc hf hr font hch⟩
  | kPuts s hs =>
    obtain ⟨e, he, h0, hlt⟩ := hs
    rw [TextCall.call, ConsoleCall.run, kPuts_eq font ⟨e, he, h0⟩]
    exact h.kPutcs hf hr font (forall_mem_textFrom (Nat.zero_le e) he h0 hlt)
  | cursorGoto x y => exact ⟨_, rfl, h.toPictures.cursorGoto hf _ _, h.corner.goto _ _⟩
  | scroll =>
    have hscroll : c.scroll 1 = .ok (c.scrolled fb) := by
      rw [Console.On.scroll_one, h.on.scrollLine_eq hf]
    exact ⟨_, hscroll, h.toPictures.scrolled hf hr, .scroll hf.rows_pos _⟩
  | clear => exact ⟨_, h.on.clear_eq hf, h.toPictures.cleared hf hr h.corner, rfl⟩
  | setTextColour colour => exact ⟨_, rfl, h.toPictures.setTextColour colour, h.corner⟩
  | setTextBgColour colour => exact ⟨_, rfl, h.toPictures.setTextBgColour colour, h.corner⟩

theorem run (h : Shows fb c t) (hf : fb.Fits) (hr : fb.Reached) (font : Nat → BitVec 64)
    (calls : List TextCall) :
    ∃ d, c.run font (calls.map TextCall.call) = .ok d ∧
      Shows fb d (calls.foldl (TextCall.onPage fb font) t) := by
  induction calls generalizing c t with
  | nil => exact ⟨c, rfl, h⟩
  | cons call calls ih =>
    obtain ⟨d, hd, hshows⟩ := h.runCall hf hr font call
    rw [List.map_cons, Console.run, List.foldlM_cons, bind_of_ok hd]
    exact ih hshows

theorem boot (hf : fb.Fits) (hz : ∀ a, fb.pixels a = 0) :
    Shows fb (Console.boot fb) TextConsole.boot :=
  ⟨.boot hf hz, rfl⟩

end Shows

theorem Framebuffer.Reached.showsText (hf : fb.Fits) (hz : ∀ a, fb.pixels a = 0)
    (hr : fb.Reached) (font : Nat → BitVec 64) (calls : List TextCall) :
    ShowsText fb font calls := by
  obtain ⟨c, hc, hshows⟩ := (Shows.boot hf hz).run hf hr font calls
  exact ⟨c, hc, hshows.pixels⟩

/-- The rows follow one another without padding, or with one pixel of it on a screen that is
a pixel short of another column and low or narrow enough. -/
def Framebuffer.Packed (fb : Framebuffer) : Prop :=
  fb.stride = fb.width ∨
    fb.stride = fb.width + 1 ∧ fb.width % 16 = 15 ∧
      (fb.rows ≤ 2 ∨ fb.columns = 1 ∧ fb.rows ≤ 33)

theorem Framebuffer.Packed.reached (hf : fb.Fits) (hp : fb.Packed) : fb.Reached := by
  have hcols : fb.columns = fb.width / 16 := rfl
  have hcpos := hf.columns_pos
  have hrpos := hf.rows_pos
  obtain he | ⟨he, hw, hsmall⟩ := hp
  · refine ⟨by omega, fun x hx y hy _ => ?_⟩
    have hlt : Raster.index fb.width x y < 16 * fb.rows * fb.width :=
      Raster.index_lt (by omega) hy
    rw [Nat.mul_right_comm, he]
    exact hlt
  · refine ⟨by omega, fun x hx y hy hlast => ?_⟩
    have hmul : y * fb.stride = y * fb.width + y := by rw [he, Nat.mul_add, Nat.mul_one]
    rw [Raster.index, hmul]
    obtain hrows | ⟨hone, hrows⟩ := hsmall
    · obtain hr | hr : fb.rows = 1 ∨ fb.rows = 2 := by omega
      · have hy15 : y * fb.width ≤ 15 * fb.width := Nat.mul_le_mul_right _ (by omega)
        rw [hr]
        omega
      · -- The last row of pixels is short of the last column only.
        obtain hy31 | hy31 : y = 31 ∨ y ≤ 30 := by omega
        · subst hy31
          rw [hr] at hlast ⊢
          omega
        · have hy30 : y * fb.width ≤ 30 * fb.width := Nat.mul_le_mul_right _ hy31
          rw [hr]
          omega
    · have hwidth : fb.width = 31 := by omega
      rw [hwidth]
      omega

theorem Framebuffer.Reached.packed (hf : fb.Fits) (hr : fb.Reached) : fb.Packed := by
  have hcols : fb.columns = fb.width / 16 := rfl
  have hcpos := hf.columns_pos
  have hst := hf.stride_ge
  have hscroll := hr.scroll
  by_cases he : fb.stride = fb.width
  · exact .inl he
  · have hpad : fb.stride = fb.width + 1 ∧ fb.width % 16 = 15 := by omega
    refine .inr ⟨hpad.1, hpad.2, ?_⟩
    by_contra hsmall
    by_cases hone : fb.columns = 1
    · -- The last row of pixels above the last row of text.
      have hwidth : fb.width = 31 := by omega
      have hlt := hr.clear 15 (by omega) (16 * fb.rows - 17) (by omega) (by omega)
      rw [Raster.index, hpad.1, hwidth] at hlt
      omega
    · -- The last row of pixels of the last cell but one.
      have hlt := hr.clear (16 * fb.columns - 17) (by omega) (16 * fb.rows - 1) (by omega)
        (by omega)
      have hmul : (16 * fb.rows - 1) * fb.width + fb.width = 16 * fb.width * fb.rows := by
        have hsplit : 16 * fb.rows = 16 * fb.rows - 1 + 1 := by omega
        calc (16 * fb.rows - 1) * fb.width + fb.width = (16 * fb.rows - 1 + 1) * fb.width := by
              rw [Nat.add_mul, Nat.one_mul]
          _ = 16 * fb.width * fb.rows := by rw [← hsplit, Nat.mul_right_comm]
      rw [Raster.index, hpad.1, Nat.mul_add, Nat.mul_one] at hlt
      omega

/-- Fill a cell with ink: both colours are the same. -/
def inkCalls (x y : Nat) : List TextCall :=
  [.setTextColour 1, .setTextBgColour 1, .cursorGoto (.ofNat 32 x) (.ofNat 32 y),
    .kPutc 0x41 (by decide)]

/-- The page with one cell of ink, before the cursor moves on. -/
def inkPage (font : Nat → BitVec 64) (x y : Nat) : TextGrid Glyph :=
  TextGrid.write ⟨font 0x41, 1, 1⟩ { TextGrid.blank with x := x, y := y }

theorem inkPage_x (font : Nat → BitVec 64) (x y : Nat) : (inkPage font x y).x = x := rfl

theorem inkPage_y (font : Nat → BitVec 64) (x y : Nat) : (inkPage font x y).y = y := rfl

theorem inkPage_cell_of_ne (font : Nat → BitVec 64) (h : ¬(x' = x ∧ y' = y)) :
    (inkPage font x y).cell x' y' = none := if_neg h

theorem Framebuffer.Fits.toNat_column (hf : fb.Fits) (hx : x < fb.columns) :
    (BitVec.ofNat 32 x).toNat = x := by
  have hw := hf.width_lt
  have hcols := columns_le fb
  exact Nat.mod_eq_of_lt (by omega)

theorem Framebuffer.Fits.toNat_row (hf : fb.Fits) (hy : y < fb.rows) :
    (BitVec.ofNat 32 y).toNat = y := by
  have hh := hf.height_lt
  have hrows := rows_le fb
  exact Nat.mod_eq_of_lt (by omega)

theorem render_inkPage (font : Nat → BitVec 64) (x y : Nat) :
    render (inkPage font (x / 16) (y / 16)) x y = 1 := by
  rw [inkPage, render_write, if_pos ⟨rfl, rfl⟩, Glyph.pixel]
  exact ite_self _

theorem textRun_inkCalls (hf : fb.Fits) (font : Nat → BitVec 64) (hx : x < fb.columns)
    (hy : y < fb.rows) :
    textRun fb font (inkCalls x y) =
      ⟨(inkPage font x y).advance fb.columns fb.rows, 1, 1⟩ := by
  have hxn := hf.toNat_column hx
  have hyn := hf.toNat_row hy
  simp only [textRun, inkCalls, List.foldl_cons, List.foldl_nil, TextCall.onPage,
    TextConsole.boot, TextGrid.goto, hxn, hyn, if_pos (And.intro hx hy)]
  rfl

/-- A cell of ink is drawn before the cursor moves on. -/
theorem run_inkCalls (hf : fb.Fits) (hz : ∀ a, fb.pixels a = 0) (font : Nat → BitVec 64)
    (hx : x < fb.columns) (hy : y < fb.rows) :
    ∃ c, (Console.boot fb).run font ((inkCalls x y).map TextCall.call) = .ok (c.advanced fb) ∧
      Pictures fb c ⟨inkPage font x y, 1, 1⟩ := by
  have hxn := hf.toNat_column hx
  have hyn := hf.toNat_row hy
  have h := (((Pictures.boot hf hz).setTextColour 1).setTextBgColour 1).cursorGoto hf x y
  rw [TextGrid.goto, if_pos ⟨hx, hy⟩] at h
  obtain ⟨d, hd⟩ : ∃ d,
      d = (((Console.boot fb).setTextColour 1).setTextBgColour 1).cursorGoto x y := ⟨_, rfl⟩
  rw [← hd] at h
  have hch : BitVec.toNat (0x41 : BitVec 16) = 0x41 := by decide
  have hputc : d.kPutc font 0x41 =
      .ok ((((d.log (.read 0x41)).printed fb (font 0x41)).serialWrite 0x41).advanced fb) := by
    rw [h.on.kPutc_eq hf h.skew_le, Console.putc, if_neg (by decide), if_neg (by decide), hch]
    simp only [Nat.reduceLT, Nat.reduceGT, if_true, if_false]
    rfl
  refine ⟨((d.log (.read 0x41)).printed fb (font 0x41)).serialWrite 0x41, ?_,
    ((h.log (.read 0x41)).printed hf (font 0x41)).log (.wrote 0x41)⟩
  simp only [inkCalls, List.map_cons, List.map_nil, TextCall.call, Console.run, List.foldlM_cons,
    List.foldlM_nil, ConsoleCall.run, hxn, hyn]
  rw [bind_of_ok rfl, bind_of_ok rfl, bind_of_ok rfl, ← hd, bind_of_ok hputc]
  rfl

theorem not_showsText {calls : List TextCall}
    (hrun : (Console.boot fb).run font (calls.map TextCall.call) = .ok c)
    (hx : x < 16 * fb.columns) (hy : y < 16 * fb.rows)
    (hink : c.pixels (Raster.index fb.stride x y) = 1)
    (hblank : render (textRun fb font calls).grid x y = 0) : ¬ShowsText fb font calls := by
  rintro ⟨d, hd, hpixels⟩
  cases hrun.symm.trans hd
  have heq := hpixels x hx y hy
  rw [hink, hblank] at heq
  exact absurd heq (by decide)

theorem run_append_one {calls : List TextCall} (call : TextCall)
    (hc : (Console.boot fb).run font (calls.map TextCall.call) = .ok c)
    (hd : ConsoleCall.run font c call.call = .ok d) :
    (Console.boot fb).run font ((calls ++ [call]).map TextCall.call) = .ok d := by
  rw [List.map_append, Console.run, List.foldlM_append]
  refine (bind_of_ok hc _).trans ?_
  rw [List.map_cons, List.map_nil, List.foldlM_cons, bind_of_ok hd]
  rfl

theorem textRun_append_one (fb : Framebuffer) (font : Nat → BitVec 64) (calls : List TextCall)
    (call : TextCall) :
    textRun fb font (calls ++ [call]) = call.onPage fb font (textRun fb font calls) := by
  rw [textRun, List.foldl_append]
  rfl

theorem Pictures.advanced_pixels (h : Pictures fb c t)
    (hlast : ¬(t.grid.x = fb.columns - 1 ∧ t.grid.y = fb.rows - 1)) :
    (c.advanced fb).pixels = c.pixels := by
  have hx := h.on.x_lt
  have hy := h.on.y_lt
  rw [← h.x, ← h.y] at hlast
  rw [Console.advanced, Console.newline]
  split_ifs
  · rfl
  · rfl
  · omega

theorem not_showsText_clear (hf : fb.Fits) (hz : ∀ a, fb.pixels a = 0) (font : Nat → BitVec 64)
    (hx : x < 16 * fb.columns) (hy : y < 16 * fb.rows)
    (hlast : ¬(x / 16 = fb.columns - 1 ∧ y / 16 = fb.rows - 1))
    (hout : 16 * fb.width * fb.rows ≤ Raster.index fb.stride x y) :
    ¬ShowsText fb font (inkCalls (x / 16) (y / 16) ++ [.clear]) := by
  obtain ⟨c, hc, h⟩ :=
    run_inkCalls hf hz font (x := x / 16) (y := y / 16) (by omega) (by omega)
  have hclear := h.on.advanced.clear_eq hf
  obtain ⟨tr, htr⟩ := Console.cleared_eq fb (c.advanced fb)
  rw [htr] at hclear
  apply not_showsText (run_append_one .clear hc hclear) hx hy
  · refine (Raster.fill_of_outside (by omega)).trans ?_
    rw [h.advanced_pixels hlast, h.pixels x hx y hy]
    exact render_inkPage font x y
  · rw [textRun_append_one]
    rfl

/-- Ink that `scroll` does not reach stays. -/
theorem not_showsText_scroll (hf : fb.Fits) (hz : ∀ a, fb.pixels a = 0) (font : Nat → BitVec 64)
    (hout : 16 * fb.width < 15 * fb.stride + 16 * fb.columns) :
    ¬ShowsText fb font (inkCalls (fb.columns - 1) (fb.rows - 2) ++ [.scroll]) := by
  have hcpos := hf.columns_pos
  have hrpos := hf.rows_pos
  obtain ⟨c, hc, h⟩ :=
    run_inkCalls hf hz font (x := fb.columns - 1) (y := fb.rows - 2) (by omega) (by omega)
  -- The last pixel of the cell.
  obtain ⟨x, hxe⟩ : ∃ x, x = 16 * fb.columns - 1 := ⟨_, rfl⟩
  obtain ⟨y, hye⟩ : ∃ y, y = 16 * (fb.rows - 2) + 15 := ⟨_, rfl⟩
  have hx16 : x / 16 = fb.columns - 1 := by omega
  have hy16 : y / 16 = fb.rows - 2 := by omega
  have hx : x < 16 * fb.columns := by omega
  have hy : y < 16 * fb.rows := by omega
  have hstay (m : Nat → BitVec 32) :
      fb.scrolled m (Raster.index fb.stride x y) = m (Raster.index fb.stride x y) := by
    have hmod : y % 16 = 15 := by omega
    apply Framebuffer.scrolled_of_ge hf (hf.x_lt hx)
    rw [hmod, Raster.index]
    omega
  have hink : (c.advanced fb).pixels (Raster.index fb.stride x y) = 1 := by
    have hpix : c.pixels (Raster.index fb.stride x y) = 1 := by
      rw [h.pixels x hx y hy, ← hx16, ← hy16]
      exact render_inkPage font x y
    rw [Console.advanced, Console.newline]
    split_ifs
    · exact hpix
    · exact hpix
    · exact (hstay _).trans hpix
  have hscroll : (c.advanced fb).scroll 1 = .ok ((c.advanced fb).scrolled fb) := by
    rw [Console.On.scroll_one, h.on.advanced.scrollLine_eq hf]
  apply not_showsText (run_append_one .scroll hc hscroll) hx hy
  · exact (hstay _).trans hink
  · have hblank : ((((inkPage font (fb.columns - 1) (fb.rows - 2)).advance fb.columns
        fb.rows).scroll fb.rows).cell (fb.columns - 1) (fb.rows - 2)) = none := by
      by_cases hone : fb.rows = 1
      · exact if_neg (by omega)
      · have hnext : fb.rows - 2 + 1 < fb.rows := by omega
        have hend : ¬fb.columns - 1 + 1 < fb.columns := by omega
        refine (if_pos hnext).trans ?_
        rw [TextGrid.advance, inkPage_x, if_neg hend, TextGrid.newline, inkPage_y, if_pos hnext]
        exact inkPage_cell_of_ne font (by omega)
    rw [textRun_append_one, textRun_inkCalls hf font (by omega) (by omega), render, hx16, hy16]
    simp only [TextCall.onPage, hblank]

/-- The console is its page of text, whatever is called, exactly on packed framebuffers. -/
theorem console_grid_iff (fb : Framebuffer) (font : Nat → BitVec 64) (hf : fb.Fits)
    (hz : ∀ a, fb.pixels a = 0) : (∀ calls, ShowsText fb font calls) ↔ fb.Packed := by
  constructor
  · intro hshows
    apply Framebuffer.Reached.packed hf
    refine ⟨?_, fun x hx y hy hlast => ?_⟩
    · by_contra hout
      exact not_showsText_scroll hf hz font (by omega) (hshows _)
    · by_contra hout
      exact not_showsText_clear hf hz font hx hy hlast (by omega) (hshows _)
  · intro hp calls
    exact (hp.reached hf).showsText hf hz font calls

/-- A mode of 1366 by 768 pixels, whose rows are padded to 1376. -/
def paddedScreen : Framebuffer where
  width := 1366
  height := 768
  pitch := 5504
  pixels := fun _ => 0

theorem paddedScreen_fits : paddedScreen.Fits := ⟨by decide, by decide, by decide, by decide⟩

theorem console_grid_iff_padded :
    (∀ calls, ShowsText paddedScreen (fun _ => 1) calls) ↔ paddedScreen.Packed :=
  console_grid_iff paddedScreen _ paddedScreen_fits fun _ => rfl

/-- There the last row of pixels of the last cells is not scrolled. -/
theorem paddedScreen_stale : ¬∀ calls, ShowsText paddedScreen (fun _ => 1) calls := fun h =>
  not_showsText_scroll paddedScreen_fits (fun _ => rfl) _ (by decide) (h _)

end AdaOS
