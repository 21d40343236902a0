import AdaOS.ConsoleSteps

namespace AdaOS
set_option autoImplicit true

variable {fb : Framebuffer} {c : Console}

/-- A string has its terminator among the bytes `k_puts` can count. -/
def ConsoleCall.Terminated : ConsoleCall → Prop
  | .kPuts s => ∃ i < 256, s i = 0
  | _ => True

theorem scaleLoop_ok (hn : n < 2 ^ 32) (hk : k ≤ 9) (hfuel : 9 < fuel + k) (digitCount : Nat) :
    ∃ r, scaleLoop n fuel (10 ^ k) digitCount = .ok r := by
  induction fuel generalizing k digitCount with
  | zero => omega
  | succ fuel ih =>
    rw [scaleLoop]
    by_cases hle : 10 ^ k ≤ n / 10
    · have hk9 : k ≠ 9 := fun h => by
        subst h
        omega
      have hpow : 10 ^ (k + 1) ≤ 10 ^ 9 := Nat.pow_le_pow_right (by decide) (by omega)
      have hu : u32 (10 ^ k * 10) = 10 ^ (k + 1) := by
        rw [← Nat.pow_succ]
        exact u32_of_lt (by omega)
      rw [if_pos hle, hu]
      exact ih (by omega) (by omega) _
    · exact ⟨_, if_neg hle⟩

namespace Console.On

theorem skew_le (hs : 128 ≤ fb.stride) (c : Console) : c.skew.toNat ≤ 2 * fb.stride := by
  have hlt := c.skew.isLt
  omega

theorem scroll (h : c.On fb) (hf : fb.Fits) (lines : Nat) :
    ∃ d, c.scroll lines = .ok d ∧ d.On fb := by
  induction lines generalizing c with
  | zero => exact ⟨c, rfl, h⟩
  | succ lines ih =>
    rw [Console.scroll, bind_of_ok (h.scrollLine_eq hf)]
    exact ih h.scrolled

theorem kPutcs (h : c.On fb) (hf : fb.Fits) (hs : 128 ≤ fb.stride) (font : Nat → BitVec 64)
    (text : List (BitVec 8)) :
    ∃ d, text.foldlM (fun c b => c.kPutc font (b.signExtend 16)) c = .ok d ∧ d.On fb := by
  induction text generalizing c with
  | nil => exact ⟨c, rfl, h⟩
  | cons b text ih =>
    rw [List.foldlM_cons, bind_of_ok (h.kPutc_eq hf (skew_le hs c) _)]
    exact ih (h.putc _)

theorem printDigit (h : c.On fb) (hf : fb.Fits) (hs : 128 ≤ fb.stride)
    (font : Nat → BitVec 64) (digit : Nat) :
    ∃ d, c.printDigit font digit = .ok d ∧ d.On fb := by
  have hread := h.log (.read digit)
  have hmissing : Console.On fb
      (if digit > 57 ∨ digit < 48 then (c.log (.read digit)).log (.read 0)
        else c.log (.read digit)) := by
    split_ifs
    · exact hread.log _
    · exact hread
  simp only [Console.printDigit]
  rw [bind_of_ok (hmissing.printBitmap_eq hf (skew_le hs _))]
  exact ⟨_, (hmissing.printed.serialWrite _).advanceCursor_eq hf,
    (hmissing.printed.serialWrite _).advanced⟩

theorem printDigits (h : c.On fb) (hf : fb.Fits) (hs : 128 ≤ fb.stride)
    (font : Nat → BitVec 64) (n div digitCount : Nat) :
    ∃ d, c.printDigits font n div digitCount = .ok d ∧ d.On fb := by
  induction digitCount generalizing c n div with
  | zero => exact ⟨c, rfl, h⟩
  | succ digitCount ih =>
    obtain ⟨d, hd, hon⟩ := h.printDigit hf hs font (u32 (n / div + 48))
    rw [Console.printDigits, bind_of_ok hd]
    exact ih hon _ _

/-- Every call stays in the framebuffer and leaves the cursor in the text area. -/
theorem runCall {call : ConsoleCall} (h : c.On fb) (hf : fb.Fits) (hs : 128 ≤ fb.stride)
    (font : Nat → BitVec 64) (ht : call.Terminated) :
    ∃ d, ConsoleCall.run font c call = .ok d ∧ d.On fb := by
  cases call with
  | kPutc ch => exact ⟨_, h.kPutc_eq hf (skew_le hs c) ch, h.putc ch⟩
  | kPuts s =>
    rw [ConsoleCall.run, kPuts_eq font ht]
    exact h.kPutcs hf hs font _
  | kPuti n =>
    obtain ⟨⟨div, digitCount⟩, hscale⟩ : ∃ r, scaleLoop n.toNat 10 (10 ^ 0) 1 = .ok r :=
      scaleLoop_ok n.isLt (by decide) (by decide) 1
    rw [Nat.pow_zero] at hscale
    rw [ConsoleCall.run, Console.kPuti, bind_of_ok hscale]
    exact h.printDigits hf hs font _ _ _
  | cursorGoto x y => exact ⟨_, rfl, h.cursorGoto hf _ _⟩
  | scroll lines => exact h.scroll hf _
  | clear => exact ⟨_, h.clear_eq hf, h.cleared hf⟩
  | setSkew n => exact ⟨_, rfl, h.screen, h.x_lt, h.y_lt⟩
  | setTextColour colour => exact ⟨_, rfl, h.screen, h.x_lt, h.y_lt⟩
  | setTextBgColour colour => exact ⟨_, rfl, h.screen, h.x_lt, h.y_lt⟩

theorem run (h : c.On fb) (hf : fb.Fits) (hs : 128 ≤ fb.stride) (font : Nat → BitVec 64)
    (ht : ∀ call ∈ calls, ConsoleCall.Terminated call) :
    ∃ d, c.run font calls = .ok d ∧ d.On fb := by
  induction calls generalizing c with
  | nil => exact ⟨c, rfl, h⟩
  | cons call calls ih =>
    obtain ⟨d, hd, hon⟩ := h.runCall hf hs font (ht call (.head _))
    rw [Console.run, List.foldlM_cons, bind_of_ok hd]
    exact ih hon fun call hc => ht call (.tail _ hc)

end Console.On

theorem Console.boot_on (hf : fb.Fits) : (Console.boot fb).On fb :=
  ⟨rfl, hf.columns_pos, hf.rows_pos⟩

/-- No run leaves the framebuffer: a write or a copy outside it would be a fault. -/
theorem console_in_bounds (fb : Framebuffer) (font : Nat → BitVec 64) (calls : List ConsoleCall)
    (hf : fb.Fits) (hs : 128 ≤ fb.stride) (ht : ∀ call ∈ calls, call.Terminated) :
    ∃ c, (Console.boot fb).run font calls = .ok c ∧
      c.cursorX ≤ c.screen.cursorXMax ∧ c.cursorY ≤ c.screen.cursorYMax := by
  obtain ⟨c, hc, hon⟩ := (Console.boot_on hf).run hf hs font ht
  refine ⟨c, hc, ?_, ?_⟩
  · rw [hon.cursorXMax hf]
    exact Nat.le_sub_one_of_lt hon.x_lt
  · rw [hon.cursorYMax hf]
    exact Nat.le_sub_one_of_lt hon.y_lt

def oneRow : Framebuffer where
  width := 128
  height := 16
  pitch := 512
  pixels := fun _ => 0

theorem oneRow_fits : oneRow.Fits := ⟨by decide, by decide, by decide, by decide⟩

/-- Twelve characters wrap in the one row, and it scrolls. -/
theorem console_in_bounds_oneRow :
    ∃ c, (Console.boot oneRow).run (fun _ => 1)
        [.setSkew 255, .kPutc 0x41, .kPuts fun i => if i < 12 then 0x41 else 0, .kPuti 10,
          .clear] = .ok c ∧
      c.cursorX ≤ c.screen.cursorXMax ∧ c.cursorY ≤ c.screen.cursorYMax := by
  apply console_in_bounds oneRow _ _ oneRow_fits (by decide)
  simp only [List.forall_mem_cons, ConsoleCall.Terminated, true_and]
  exact ⟨⟨12, by decide, rfl⟩, List.forall_mem_nil _⟩

end AdaOS
