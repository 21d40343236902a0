import AdaOS.ConsoleBounds
import AdaOS.ConsoleRuns

namespace AdaOS
set_option autoImplicit true

/-- The printf output hook: `_out_char`, which calls `_putchar` on a character that is not the
terminator. -/
def Console.outChar (font : Nat → BitVec 64) (c : Console) (ch : BitVec 8) :
    Except Fault Console :=
  if ch ≠ 0 then c.kPutc font (ch.signExtend 16) else .ok c

/-- The first `n` turns of the loop of `k_puts`, which end early at the terminator. -/
def Console.kPutsTurns (font : Nat → BitVec 64) (s : Nat → BitVec 8) :
    Nat → Nat → Console → Except Fault Console
  | 0, _, c => .ok c
  | n + 1, i, c =>
    if s i = 0 then .ok c
    else do
      let c ← c.kPutc font ((s i).signExtend 16)
      Console.kPutsTurns font s n ((i + 1) % 256) c

def turnText (s : Nat → BitVec 8) : Nat → Nat → List (BitVec 8)
  | 0, _ => []
  | n + 1, i => if s i = 0 then [] else s i :: turnText s n ((i + 1) % 256)

/-- From one console to the other only events with a property are added. -/
def Console.Logs (P : ConsoleEvent → Prop) (c d : Console) : Prop :=
  ∃ new, d.trace = new ++ c.trace ∧ ∀ e ∈ new, P e

/-- From one console to the other `font` is read only at indices with a property. -/
def Console.Reads (P : Nat → Prop) (c d : Console) : Prop :=
  ∃ new, d.trace = new ++ c.trace ∧ ∀ i, .read i ∈ new → P i

/-- A glyph of `font` is looked up and drawn at the cursor; then bytes may go to the serial port
and the cursor moves on. -/
def Console.Draws (font : Nat → BitVec 64) (i : Nat) (c d : Console) : Prop :=
  ∃ (e : Console) (bytes : List (BitVec 8)),
    (c.log (.read i)).printBitmap (font i) c.calculateX c.calculateY = .ok e ∧
      (bytes.foldl Console.serialWrite e).advanceCursor = .ok d

/-- A character is looked up inside the 256 glyphs, and drawn with the glyph of its number. -/
structure Console.InFont (font : Nat → BitVec 64) (ch : Nat) (c d : Console) : Prop where
  reads : c.Reads (· < 256) d
  drawn : ch ≠ 0x00 → ch ≠ 0x0a → ch ≠ 0x0d → c.Draws font ch d

/-- The characters of a text are, one after the other. -/
def TextInFont (font : Nat → BitVec 64) : List (BitVec 8) → Console → Console → Prop
  | [], c, d => c = d
  | b :: text, c, d =>
    ∃ e, c.kPutc font (b.signExtend 16) = .ok e ∧ c.InFont font b.toNat e ∧ TextInFont font text e d

def PutcInFont (font : Nat → BitVec 64) (ch : BitVec 16) : Prop :=
  ∀ c d, Console.kPutc font c ch = .ok d → c.InFont font ch.toNat d

def OutCharInFont (font : Nat → BitVec 64) (ch : BitVec 8) : Prop :=
  ∀ c d, Console.outChar font c ch = .ok d → c.InFont font ch.toNat d

/-- Also a string that is printed for ever is printed from the font. -/
def PutsInFont (font : Nat → BitVec 64) (s : Nat → BitVec 8) : Prop :=
  ∀ n c d, Console.kPutsTurns font s n 0 c = .ok d → TextInFont font (turnText s n 0) c d

namespace Console.Logs
variable {P : ConsoleEvent → Prop} {c d e : Console}

theorem of_trace_eq (h : d.trace = c.trace) : c.Logs P d := ⟨[], h, List.forall_mem_nil _⟩

theorem trans (hcd : c.Logs P d) (hde : d.Logs P e) : c.Logs P e := by
  obtain ⟨first, hd, hfirst⟩ := hcd
  obtain ⟨second, he, hsecond⟩ := hde
  refine ⟨second ++ first, ?_, List.forall_mem_append.2 ⟨hsecond, hfirst⟩⟩
  rw [he, hd, List.append_assoc]

theorem log (c : Console) {event : ConsoleEvent} (he : P event) : c.Logs P (c.log event) :=
  ⟨[event], rfl, List.forall_mem_singleton.2 he⟩

theorem memcpy (h : c.memcpy dst src n = .ok d) : c.Logs P d := by
  rw [Console.memcpy] at h
  split_ifs at h
  cases h
  exact of_trace_eq rfl

theorem memset (h : c.memset dst n = .ok d) : c.Logs P d := by
  rw [Console.memset] at h
  split_ifs at h
  cases h
  exact of_trace_eq rfl

theorem scrollRows (h : c.scrollRows i n = .ok d) : c.Logs P d := by
  induction n generalizing c i with
  | zero =>
    cases h
    exact of_trace_eq rfl
  | succ n ih =>
    obtain ⟨e, hcopy, hrest⟩ := bind_ok h
    exact (memcpy hcopy).trans (ih hrest)

theorem scrollLine (h : c.scrollLine = .ok d) : c.Logs (· = .wrote 0x0a) d := by
  obtain ⟨e, hrows, hrest⟩ := bind_ok h
  obtain ⟨f, hlast, hret⟩ := bind_ok hrest
  cases hret
  exact ((scrollRows hrows).trans (memset hlast)).trans (log f rfl)

theorem nlCursor (h : c.nlCursor = .ok d) : c.Logs (· = .wrote 0x0a) d := by
  rw [Console.nlCursor] at h
  split_ifs at h
  · obtain ⟨e, hscroll, hret⟩ := bind_ok h
    cases hret
    rw [Console.On.scroll_one] at hscroll
    exact (scrollLine hscroll).trans (of_trace_eq rfl)
  · cases h
    exact (of_trace_eq rfl).trans (log _ rfl)

theorem advanceCursor (h : c.advanceCursor = .ok d) : c.Logs (· = .wrote 0x0a) d := by
  rw [Console.advanceCursor] at h
  split_ifs at h
  · exact nlCursor h
  · cases h
    exact of_trace_eq rfl

theorem setPixel (h : c.setPixel index colour = .ok d) : c.Logs P d := by
  rw [Console.setPixel] at h
  split_ifs at h
  cases h
  exact of_trace_eq rfl

theorem drawSubpixels {l : List Subpixel}
    (h : l.foldlM (Console.drawSubpixel bitmap x y) c = .ok d) : c.Logs P d := by
  induction l generalizing c with
  | nil =>
    cases h
    exact of_trace_eq rfl
  | cons s l ih =>
    rw [List.foldlM_cons] at h
    obtain ⟨e, hdraw, hrest⟩ := bind_ok h
    exact (setPixel hdraw).trans (ih hrest)

theorem reads {Q : Nat → Prop} (h : c.Logs P d) (hP : ∀ i, P (.read i) → Q i) : c.Reads Q d := by
  obtain ⟨new, hnew, hall⟩ := h
  exact ⟨new, hnew, fun i hi => hP i (hall _ hi)⟩

end Console.Logs

namespace Console.Reads
variable {P : Nat → Prop} {c d e : Console}

theorem of_trace_eq (h : d.trace = c.trace) : c.Reads P d := ⟨[], h, fun _ hi => nomatch hi⟩

theorem trans (hcd : c.Reads P d) (hde : d.Reads P e) : c.Reads P e := by
  obtain ⟨first, hd, hfirst⟩ := hcd
  obtain ⟨second, he, hsecond⟩ := hde
  refine ⟨second ++ first, ?_, ?_⟩
  · rw [he, hd, List.append_assoc]
  · intro i hi
    obtain hi | hi := List.mem_append.1 hi
    · exact hsecond i hi
    · exact hfirst i hi

theorem log (c : Console) (hP : P i) : c.Reads P (c.log (.read i)) := by
  refine ⟨[.read i], rfl, fun j hj => ?_⟩
  have hji : ConsoleEvent.read j = .read i := List.mem_singleton.1 hj
  cases hji
  exact hP

theorem serialWrite (c : Console) (byte : BitVec 8) : c.Reads P (c.serialWrite byte) := by
  refine ⟨[.wrote byte], rfl, fun j hj => ?_⟩
  have hbyte : ConsoleEvent.read j = .wrote byte := List.mem_singleton.1 hj
  cases hbyte

theorem of_lineFeeds (h : c.Logs (· = .wrote 0x0a) d) : c.Reads P d :=
  h.reads fun _ hi => nomatch hi

theorem nlCursor (h : c.nlCursor = .ok d) : c.Reads P d := of_lineFeeds (.nlCursor h)

theorem advanceCursor (h : c.advanceCursor = .ok d) : c.Reads P d := of_lineFeeds (.advanceCursor h)

theorem drawSubpixels {l : List Subpixel}
    (h : l.foldlM (Console.drawSubpixel bitmap x y) c = .ok d) : c.Reads P d :=
  of_lineFeeds (.drawSubpixels h)

theorem serialWrites (bytes : List (BitVec 8)) (c : Console) :
    c.Reads P (bytes.foldl Console.serialWrite c) := by
  induction bytes generalizing c with
  | nil => exact of_trace_eq rfl
  | cons byte bytes ih => exact (serialWrite c byte).trans (ih _)

theorem draws (h : c.Draws font i d) : Console.Reads P (c.log (.read i)) d := by
  obtain ⟨e, bytes, hdraw, hmove⟩ := h
  exact ((drawSubpixels hdraw).trans (serialWrites bytes e)).trans (advanceCursor hmove)

theorem of_log (h : c.Reads P d) (hlog : Console.Reads Q (c.log (.read i)) d) : P i := by
  obtain ⟨new, hnew, hP⟩ := h
  obtain ⟨later, hlater, _⟩ := hlog
  have htrace : (c.log (.read i)).trace = [.read i] ++ c.trace := rfl
  rw [hnew, htrace, ← List.append_assoc] at hlater
  apply hP
  rw [List.append_cancel_right hlater]
  exact List.mem_append_right _ (.head _)

end Console.Reads

theorem Console.kPutc_draws {c d : Console} (h : c.kPutc font ch = .ok d) (hnl : ch ≠ 0x0a)
    (hcr : ch ≠ 0x0d) (hle : ch.toNat ≤ 256) : c.Draws font ch.toNat d := by
  rw [Console.kPutc, if_neg hnl, if_neg hcr] at h
  simp only [if_neg (Nat.not_lt.2 hle)] at h
  obtain ⟨e, hdraw, hmove⟩ := bind_ok h
  split_ifs at hmove
  · exact ⟨e, [ch.truncate 8], hdraw, hmove⟩
  · exact ⟨e, [], hdraw, hmove⟩

theorem Console.kPutc_inFont {c d : Console} (h : c.kPutc font ch = .ok d)
    (hlt : ch.toNat < 256) : c.InFont font ch.toNat d := by
  by_cases hnl : ch = 0x0a
  · rw [Console.kPutc, if_pos hnl] at h
    obtain ⟨e, hmove, hret⟩ := bind_ok h
    cases hret
    refine ⟨(Console.Reads.nlCursor hmove).trans (.of_trace_eq rfl), fun _ h _ => ?_⟩
    exact absurd (congrArg BitVec.toNat hnl) h
  · by_cases hcr : ch = 0x0d
    · rw [Console.kPutc, if_neg hnl, if_pos hcr] at h
      cases h
      refine ⟨.of_trace_eq rfl, fun _ _ h => ?_⟩
      exact absurd (congrArg BitVec.toNat hcr) h
    · have hdraws := Console.kPutc_draws h hnl hcr (Nat.le_of_lt hlt)
      have hlook : c.Reads (· < 256) (c.log (.read ch.toNat)) := .log c hlt
      exact ⟨hlook.trans (.draws hdraws), fun _ _ _ => hdraws⟩

theorem Console.kPutc_looksUp {c d : Console} (h : c.kPutc font ch = .ok d) (hnl : ch ≠ 0x0a)
    (hcr : ch ≠ 0x0d) : Console.Reads (fun _ => True) (c.log (.read ch.toNat)) d := by
  by_cases hbig : ch.toNat > 256
  · rw [Console.kPutc, if_neg hnl, if_neg hcr] at h
    simp only [if_pos hbig] at h
    cases h
    exact .log _ trivial
  · exact .draws (Console.kPutc_draws h hnl hcr (Nat.le_of_not_lt hbig))

theorem Console.InFont.lt {c d : Console} (h : c.kPutc font ch = .ok d) (hin : c.InFont font i d) :
    ch.toNat < 256 := by
  by_cases hnl : ch = 0x0a
  · rw [hnl]
    decide
  · by_cases hcr : ch = 0x0d
    · rw [hcr]
      decide
    · exact hin.reads.of_log (Console.kPutc_looksUp h hnl hcr)

theorem kPutc_oneRow (font : Nat → BitVec 64) (ch : BitVec 16) :
    ∃ d, (Console.boot oneRow).kPutc font ch = .ok d :=
  ⟨_, (Console.boot_on oneRow_fits).kPutc_eq oneRow_fits (Nat.zero_le _) ch⟩

theorem putcInFont_iff (font : Nat → BitVec 64) (ch : BitVec 16) :
    PutcInFont font ch ↔ ch.toNat < 256 := by
  constructor
  · intro h
    obtain ⟨d, hd⟩ := kPutc_oneRow font ch
    exact (h _ d hd).lt hd
  · exact fun hlt c d hd => Console.kPutc_inFont hd hlt

theorem toNat_signExtend_lt_iff (b : BitVec 8) :
    (b.signExtend 16).toNat < 256 ↔ b.toNat < 128 := by
  have hmsb := BitVec.msb_eq_false_iff_two_mul_lt (x := b)
  have hb := b.isLt
  rw [BitVec.toNat_signExtend, BitVec.toNat_setWidth, Nat.mod_eq_of_lt (by omega)]
  cases hsign : b.msb with
  | false =>
    have hlt := hmsb.1 hsign
    simp only [Bool.false_eq_true, if_false]
    omega
  | true =>
    have hge : ¬2 * b.toNat < 2 ^ 8 := fun h => by
      rw [hmsb.2 h] at hsign
      cases hsign
    simp only [if_true]
    omega

theorem toNat_signExtend_of_lt {b : BitVec 8} (hb : b.toNat < 128) :
    (b.signExtend 16).toNat = b.toNat := by
  rw [signExtend_of_lt hb, BitVec.toNat_setWidth, Nat.mod_eq_of_lt (by omega)]

theorem Console.kPutc_byte {c d : Console} {b : BitVec 8}
    (h : c.kPutc font (b.signExtend 16) = .ok d) (hb : b.toNat < 128) :
    c.InFont font b.toNat d := by
  have hin := Console.kPutc_inFont h ((toNat_signExtend_lt_iff b).2 hb)
  rwa [toNat_signExtend_of_lt hb] at hin

theorem outCharInFont_iff (font : Nat → BitVec 64) (ch : BitVec 8) :
    OutCharInFont font ch ↔ ch.toNat < 128 := by
  by_cases hzero : ch = 0
  · subst hzero
    refine iff_of_true (fun c d h => ?_) (by decide)
    cases h
    exact ⟨.of_trace_eq rfl, fun h => absurd rfl h⟩
  · rw [← toNat_signExtend_lt_iff]
    constructor
    · intro h
      obtain ⟨d, hd⟩ := kPutc_oneRow font (ch.signExtend 16)
      exact (h _ d (by rw [Console.outChar, if_pos hzero, hd])).lt hd
    · intro hlt c d h
      rw [Console.outChar, if_pos hzero] at h
      exact Console.kPutc_byte h ((toNat_signExtend_lt_iff ch).1 hlt)

theorem kPutsTurns_eq (font : Nat → BitVec 64) (s : Nat → BitVec 8) (n i : Nat) (c : Console) :
    Console.kPutsTurns font s n i c =
      (turnText s n i).foldlM (fun c b => c.kPutc font (b.signExtend 16)) c := by
  induction n generalizing i c with
  | zero => rfl
  | succ n ih =>
    rw [Console.kPutsTurns, turnText]
    by_cases hs : s i = 0
    · rw [if_pos hs, if_pos hs]
      rfl
    · rw [if_neg hs, if_neg hs, List.foldlM_cons]
      exact bind_congr_ok fun d _ => ih _ d

theorem kPutsTurns_of_kPutsFrom (h : Console.kPutsFrom font s fuel i c = .ok d) :
    Console.kPutsTurns font s fuel i c = .ok d := by
  induction fuel generalizing i c with
  | zero => cases h
  | succ fuel ih =>
    rw [Console.kPutsFrom] at h
    rw [Console.kPutsTurns]
    split_ifs at h ⊢ with hs hnl hcr
    · exact h
    · obtain ⟨e, hmove, hrest⟩ := bind_ok h
      rw [hnl, Console.kPutc, if_pos (by decide), hmove]
      exact ih hrest
    · rw [hcr, Console.kPutc, if_neg (by decide), if_pos (by decide)]
      exact ih h
    · obtain ⟨e, hput, hrest⟩ := bind_ok h
      rw [hput]
      exact ih hrest

theorem mem_textFrom (hki : k ≤ i) (hi : i < 256) (hs : ∀ j ≤ i, s j ≠ 0) :
    s i ∈ textFrom s k := by
  induction hn : i - k generalizing k with
  | zero =>
    obtain rfl : k = i := by omega
    rw [textFrom_eq hi, if_neg (hs k (Nat.le_refl k))]
    exact .head _
  | succ n ih =>
    rw [textFrom_eq (by omega), if_neg (hs k hki)]
    exact .tail _ (ih (by omega) (by omega))

theorem mem_turnText (hb : b ∈ turnText s n i) (hi : i < 256) (hbefore : ∀ j < i, s j ≠ 0) :
    b ∈ textFrom s 0 := by
  induction n generalizing i with
  | zero => cases hb
  | succ n ih =>
    rw [turnText] at hb
    split_ifs at hb with hs
    · cases hb
    · have hupto : ∀ j ≤ i, s j ≠ 0 := by
        intro j hj
        obtain rfl | hlt := Nat.eq_or_lt_of_le hj
        · exact hs
        · exact hbefore j hlt
      obtain rfl | hmem := List.mem_cons.1 hb
      · exact mem_textFrom (Nat.zero_le i) hi hupto
      · apply ih hmem (Nat.mod_lt _ (by decide))
        intro j hj
        apply hupto
        have hmod := Nat.mod_le (i + 1) 256
        omega

theorem turnText_all (s : Nat → BitVec 8) (h : i + n = 256) : turnText s n i = textFrom s i := by
  induction n generalizing i with
  | zero =>
    obtain rfl : i = 256 := h
    rfl
  | succ n ih =>
    rw [turnText, textFrom_eq (by omega)]
    by_cases hlast : i + 1 = 256
    · obtain rfl : n = 0 := by omega
      rw [hlast]
      rfl
    · rw [Nat.mod_eq_of_lt (by omega), ih (by omega)]

theorem textInFont_of_lt {text : List (BitVec 8)} (ht : ∀ b ∈ text, b.toNat < 128)
    (h : text.foldlM (fun c b => Console.kPutc font c (b.signExtend 16)) c = .ok d) :
    TextInFont font text c d := by
  induction text generalizing c with
  | nil =>
    cases h
    rfl
  | cons b text ih =>
    rw [List.foldlM_cons] at h
    obtain ⟨e, hput, hrest⟩ := bind_ok h
    exact ⟨e, hput, Console.kPutc_byte hput (ht b (.head _)),
      ih (fun b hb => ht b (.tail _ hb)) hrest⟩

theorem TextInFont.lt {text : List (BitVec 8)} (h : TextInFont font text c d) :
    ∀ b ∈ text, b.toNat < 128 := by
  induction text generalizing c with
  | nil => exact List.forall_mem_nil _
  | cons b text ih =>
    obtain ⟨e, hput, hin, hrest⟩ := h
    exact List.forall_mem_cons.2 ⟨(toNat_signExtend_lt_iff b).1 (hin.lt hput), ih hrest⟩

theorem putsInFont_iff (font : Nat → BitVec 64) (s : Nat → BitVec 8) :
    PutsInFont font s ↔ ∀ b ∈ textFrom s 0, b.toNat < 128 := by
  constructor
  · intro h
    obtain ⟨d, hrun, _⟩ := (Console.boot_on oneRow_fits).kPutcs oneRow_fits (by decide) font
      (textFrom s 0)
    rw [← turnText_all s (n := 256) (by decide), ← kPutsTurns_eq] at hrun
    have hin := h 256 _ d hrun
    rw [turnText_all s (by decide)] at hin
    exact hin.lt
  · intro ht n c d hrun
    rw [kPutsTurns_eq] at hrun
    exact textInFont_of_lt (fun b hb => ht b (mem_turnText hb (by decide) (by omega))) hrun

/-- The lookups are inside the font, and the glyphs are those of the bytes, exactly for the
arguments of `k_putc` below 256 and for texts of bytes below 128. -/
theorem font_lookups_iff (font : Nat → BitVec 64) :
    (∀ ch, PutcInFont font ch ↔ ch.toNat < 256) ∧
      (∀ ch, OutCharInFont font ch ↔ ch.toNat < 128) ∧
      ∀ s, PutsInFont font s ↔ ∀ b ∈ textFrom s 0, b.toNat < 128 :=
  ⟨putcInFont_iff font, outCharInFont_iff font, putsInFont_iff font⟩

/-- The byte 0xe4 is looked up at 0xffe4. -/
theorem outChar_beyond_font :
    ¬∀ font : Nat → BitVec 64, (∀ ch, PutcInFont font ch) ∧ (∀ ch, OutCharInFont font ch) ∧
      ∀ s, PutsInFont font s := by
  intro h
  have hlt := (outCharInFont_iff (fun _ => 1) 0xe4).1 ((h fun _ => 1).2.1 0xe4)
  exact absurd hlt (by decide)

end AdaOS
