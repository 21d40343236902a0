import AdaOS.ConsoleBounds
import AdaOS.LineWrap
import AdaOS.PrintfSinks

namespace AdaOS
set_option autoImplicit true
open LineWrap

def ConsoleEvent.sent : ConsoleEvent → List (BitVec 8)
  | .wrote byte => [byte]
  | .read _ => []

/-- The bytes that the console has sent to the serial port, in order. -/
def Console.sent (c : Console) : List (BitVec 8) := c.trace.reverse.flatMap ConsoleEvent.sent

/-- The characters of a text that `k_putc` has a glyph for. -/
def mirrored (t : List (BitVec 8)) : List (BitVec 8) := t.filter fun b => b.toNat < 128

/-- The console `d` is `c` once it has printed `t`, which the serial port has in the lines of the
screen. -/
structure Console.Prints (fb : Framebuffer) (c d : Console) (t : List (BitVec 8)) : Prop where
  on : d.On fb
  column : d.cursorX = LineWrap.column 0x0a 0x0d fb.columns c.cursorX (mirrored t)
  sent : d.sent = c.sent ++ wrap 0x0a 0x0d fb.columns c.cursorX (mirrored t)
  onColour : d.onColour = c.onColour

namespace Console
variable {fb : Framebuffer} {c d e : Console} {t u : List (BitVec 8)}

theorem sent_log (c : Console) (ev : ConsoleEvent) : (c.log ev).sent = c.sent ++ ev.sent := by
  rw [Console.sent, log, List.reverse_cons, List.flatMap_append, List.flatMap_singleton]
  rfl

theorem sent_serialWrite (c : Console) (byte : BitVec 8) :
    (c.serialWrite byte).sent = c.sent ++ [byte] := c.sent_log (.wrote byte)

theorem sent_read (c : Console) (index : Nat) : (c.log (.read index)).sent = c.sent :=
  (c.sent_log _).trans (List.append_nil _)

theorem sent_newline (fb : Framebuffer) (c : Console) :
    (c.newline fb).sent = c.sent ++ [0x0a] := by
  rw [newline]
  split_ifs
  · exact sent_serialWrite { c with cursorX := 0, cursorY := c.cursorY + 1 } 0x0a
  · exact sent_serialWrite { c with pixels := fb.scrolled c.pixels } 0x0a

theorem cursorX_newline (fb : Framebuffer) (c : Console) : (c.newline fb).cursorX = 0 := by
  rw [newline]
  split_ifs <;> rfl

theorem onColour_newline (fb : Framebuffer) (c : Console) :
    (c.newline fb).onColour = c.onColour := by
  rw [newline]
  split_ifs <;> rfl

namespace Prints

theorem nil (h : c.On fb) : Prints fb c c [] := ⟨h, rfl, (List.append_nil _).symm, rfl⟩

theorem append (h : Prints fb c d t) (h' : Prints fb d e u) : Prints fb c e (t ++ u) := by
  refine ⟨h'.on, ?_, ?_, h'.onColour.trans h.onColour⟩
  · rw [h'.column, h.column, mirrored, mirrored, mirrored, List.filter_append, column_append]
  · rw [h'.sent, h.sent, h.column, mirrored, mirrored, mirrored, List.filter_append, wrap_append,
      List.append_assoc]

theorem setTextColour (h : Prints fb c d t) (colour : BitVec 32) :
    Prints fb (c.setTextColour colour) (d.setTextColour colour) t :=
  ⟨⟨h.on.screen, h.on.x_lt, h.on.y_lt⟩, h.column, h.sent, rfl⟩

end Prints

theorem signExtend_gt : ∀ b : BitVec 8, ¬ b.toNat < 128 → (b.signExtend 16).toNat > 256 := by decide

theorem signExtend_lineFeed : ∀ b : BitVec 8, b.signExtend 16 = 0x0a ↔ b = 0x0a := by decide

theorem signExtend_return : ∀ b : BitVec 8, b.signExtend 16 = 0x0d ↔ b = 0x0d := by decide

theorem setWidth_signExtend : ∀ b : BitVec 8, (b.signExtend 16).truncate 8 = b := by decide

theorem mirrored_of_lt (hb : b.toNat < 128) : mirrored [b] = [b] :=
  List.filter_cons_of_pos (decide_eq_true hb)

/-- The cursor goes on behind a glyph that has been drawn and sent. -/
theorem On.advanced_prints (h : d.On fb) (hx : d.cursorX = c.cursorX)
    (hsent : d.sent = c.sent ++ [b]) (hcolour : d.onColour = c.onColour) (hb : b.toNat < 128)
    (hlf : b ≠ 0x0a) (hcr : b ≠ 0x0d) : Prints fb c (d.advanced fb) [b] := by
  have hnext : next 0x0a 0x0d fb.columns c.cursorX b =
      if c.cursorX + 1 < fb.columns then c.cursorX + 1 else 0 := if_neg (not_or.2 ⟨hlf, hcr⟩)
  have hput : LineWrap.put 0x0a 0x0d fb.columns c.cursorX b =
      if c.cursorX + 1 < fb.columns then [b] else [b, 0x0a] := by
    rw [LineWrap.put, if_neg hlf, if_neg hcr]
  refine ⟨h.advanced, ?_, ?_, ?_⟩
  · rw [mirrored_of_lt hb]
    change _ = next 0x0a 0x0d fb.columns c.cursorX b
    rw [hnext, Console.advanced, hx]
    split_ifs
    · rfl
    · exact cursorX_newline fb d
  · rw [mirrored_of_lt hb, wrap, wrap, List.append_nil, hput, Console.advanced, hx]
    split_ifs
    · exact hsent
    · rw [sent_newline, hsent, List.append_assoc]
      rfl
  · rw [Console.advanced]
    split_ifs
    · exact hcolour
    · exact (onColour_newline fb d).trans hcolour

/-- The step of a text, for one character. -/
theorem On.putc_prints (h : c.On fb) (font : Nat → BitVec 64) (b : BitVec 8) :
    Prints fb c (c.putc fb font (b.signExtend 16)) [b] := by
  have hon : (c.putc fb font (b.signExtend 16)).On fb := h.putc (b.signExtend 16)
  by_cases hlf : b = 0x0a
  · have hput : c.putc fb font (b.signExtend 16) = { c.newline fb with cursorX := 0 } :=
      if_pos ((signExtend_lineFeed b).2 hlf)
    rw [hput] at hon ⊢
    subst hlf
    exact ⟨hon, rfl, sent_newline fb c, onColour_newline fb c⟩
  · have hne : b.signExtend 16 ≠ 0x0a := mt (signExtend_lineFeed b).1 hlf
    by_cases hcr : b = 0x0d
    · have hput : c.putc fb font (b.signExtend 16) = { c with cursorX := 0 } := by
        rw [Console.putc, if_neg hne, if_pos ((signExtend_return b).2 hcr)]
      rw [hput] at hon ⊢
      subst hcr
      exact ⟨hon, rfl, (List.append_nil _).symm, rfl⟩
    · have hne' : b.signExtend 16 ≠ 0x0d := mt (signExtend_return b).1 hcr
      have hread := c.sent_read (b.signExtend 16).toNat
      by_cases hglyph : b.toNat < 128
      · have hsmall : ¬ (b.signExtend 16).toNat > 256 := by
          rw [toNat_signExtend_of_lt hglyph]
          omega
        have hport : (b.signExtend 16).toNat < 128 := by
          rwa [toNat_signExtend_of_lt hglyph]
        have hprinted : ((c.log (.read (b.signExtend 16).toNat)).printed fb
            (font (b.signExtend 16).toNat)).On fb := (h.log (.read (b.signExtend 16).toNat)).printed
        have hput : c.putc fb font (b.signExtend 16) =
            ((((c.log (.read (b.signExtend 16).toNat)).printed fb
              (font (b.signExtend 16).toNat)).serialWrite b).advanced fb) := by
          rw [Console.putc, if_neg hne, if_neg hne']
          dsimp only
          rw [if_neg hsmall, if_pos hport, setWidth_signExtend]
        rw [hput]
        refine (hprinted.serialWrite b).advanced_prints rfl ?_ rfl hglyph hlf hcr
        rw [sent_serialWrite]
        exact congrArg (· ++ [b]) hread
      · have hput : c.putc fb font (b.signExtend 16) =
            (c.log (.read (b.signExtend 16).toNat)).log (.read 0) := by
          rw [Console.putc, if_neg hne, if_neg hne']
          exact if_pos (signExtend_gt b hglyph)
        have hnone : mirrored [b] = [] := List.filter_cons_of_neg (by simpa using hglyph)
        rw [hput] at hon ⊢
        refine ⟨hon, ?_, ?_, rfl⟩
        · rw [hnone]
          rfl
        · rw [hnone, wrap, sent_read, hread, List.append_nil]

/-- The run, for a whole text. -/
theorem On.putcs_prints (h : c.On fb) (hf : fb.Fits) (hs : 128 ≤ fb.stride)
    (font : Nat → BitVec 64) (t : List (BitVec 8)) :
    ∃ d, t.foldlM (fun c b => c.kPutc font (b.signExtend 16)) c = .ok d ∧ Prints fb c d t := by
  induction t generalizing c with
  | nil => exact ⟨c, rfl, .nil h⟩
  | cons b t ih =>
    have hstep := h.putc_prints font b
    obtain ⟨d, hd, hrest⟩ := ih hstep.on
    refine ⟨d, ?_, hstep.append hrest⟩
    rw [List.foldlM_cons, bind_of_ok (h.kPutc_eq hf (On.skew_le hs c) _)]
    exact hd

theorem On.kPuts_prints (h : c.On fb) (hf : fb.Fits) (hs : 128 ≤ fb.stride)
    (font : Nat → BitVec 64) {s : Nat → BitVec 8} (hend : ∃ i < 256, s i = 0) :
    ∃ d, c.kPuts font s = .ok d ∧ Prints fb c d (textFrom s 0) := by
  rw [kPuts_eq font hend]
  exact h.putcs_prints hf hs font (textFrom s 0)

end Console

namespace Printf
open Traced
variable {fb : Framebuffer} {c : Console} {format t : List (BitVec 8)} {va : List Arg}

theorem printf_prints (h : c.On fb) (hf : fb.Fits) (hs : 128 ≤ fb.stride)
    (font : Nat → BitVec 64) (htext : (text format va).result = .ok ())
    (hlen : (text format va).events.length < 2 ^ 64) :
    ∃ d, printf font c format va = .ok (d, returned (text format va).events) ∧
      c.Prints fb d (shown format va) := by
  obtain ⟨d, hd, hprints⟩ := h.putcs_prints hf hs font (shown format va)
  refine ⟨d, ?_, hprints⟩
  rw [printf_eq_run htext hlen, Console.run, List.foldlM_map]
  exact congrArg (Except.map (·, returned (text format va).events)) hd

theorem printf_says (h : c.On fb) (hf : fb.Fits) (hs : 128 ≤ fb.stride) (font : Nat → BitVec 64)
    (htext : text format va = emits t) (h0 : 0 ∉ t) (hlen : t.length < 2 ^ 64) :
    ∃ d, printf font c format va = .ok (d, returned t) ∧ c.Prints fb d t := by
  have hresult : (text format va).result = .ok () := by rw [htext]; rfl
  have hevents : (text format va).events = t := by rw [htext]; rfl
  have hprints := printf_prints h hf hs font hresult (hevents.symm ▸ hlen)
  rwa [hevents, shown_of_emits htext h0] at hprints

/-- `printf_` stays inside the framebuffer. The serial port gets each character of its text that
has a glyph once and in order, with line feeds where the screen has no more room. -/
theorem printf_mirrors (h : c.On fb) (hf : fb.Fits) (hs : 128 ≤ fb.stride)
    (font : Nat → BitVec 64) (htext : (text format va).result = .ok ())
    (hlen : (text format va).events.length < 2 ^ 64) :
    ∃ d sent, printf font c format va = .ok (d, returned (text format va).events) ∧ d.On fb ∧
      d.sent = c.sent ++ sent ∧
      sent.filter (· ≠ 0x0a) =
        (text format va).events.filter (fun b => b ≠ 0 ∧ b.toNat < 128 ∧ b ≠ 0x0a ∧ b ≠ 0x0d) ∧
      (0x0d ∉ (text format va).events → ∀ line, line <:+: sent → 0x0a ∉ line →
        line.length ≤ fb.columns) := by
  obtain ⟨d, hd, hprints⟩ := printf_prints h hf hs font htext hlen
  refine ⟨d, _, hd, hprints.on, hprints.sent, ?_, ?_⟩
  · rw [LineWrap.filter_wrap, mirrored, shown, List.filter_filter, List.filter_filter]
    apply List.filter_congr
    intro b _
    rw [← Bool.decide_and, ← Bool.decide_and, decide_eq_decide]
    tauto
  · intro hcr line hline hlf
    refine LineWrap.length_line h.x_lt ?_ hline hlf
    intro hmem
    exact hcr (List.mem_of_mem_filter (List.mem_of_mem_filter hmem))

theorem printf_mirrors_digits :
    ∃ d sent, printf (fun _ => 1) (Console.boot oneRow) (stringLiteral "%d") [.ofInt 2024] =
        .ok (d, returned (text (stringLiteral "%d") [.ofInt 2024]).events) ∧ d.On oneRow ∧
      d.sent = (Console.boot oneRow).sent ++ sent ∧
      sent.filter (· ≠ 0x0a) = (text (stringLiteral "%d") [.ofInt 2024]).events.filter
        (fun b => b ≠ 0 ∧ b.toNat < 128 ∧ b ≠ 0x0a ∧ b ≠ 0x0d) ∧
      (0x0d ∉ (text (stringLiteral "%d") [.ofInt 2024]).events → ∀ line, line <:+: sent →
        0x0a ∉ line → line.length ≤ oneRow.columns) :=
  printf_mirrors (Console.boot_on oneRow_fits) oneRow_fits (by decide) _ (by decide) (by decide)

end Printf

end AdaOS
