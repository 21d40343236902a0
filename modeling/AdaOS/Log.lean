import AdaOS.ConsoleMirror
import AdaOS.ConsoleStrings
import AdaOS.Core
import AdaOS.PrintfPlain

namespace AdaOS.Printf
set_option autoImplicit true

open Traced

def PLAIN_TEXT_COLOUR : BitVec 32 := 0xb0b0b0
def WRN_TEXT_COLOUR : BitVec 32 := 0xffff66
def ERR_TEXT_COLOUR : BitVec 32 := 0xff6666

section Log
variable (font : Nat → BitVec 64)

def crlf (c : Console) : Except Fault Console := c.kPuts font (cString "\r\n")

/-- `vprintf` and `crlf`, with which every log call ends. -/
def finishLine (c : Console) (format : List (BitVec 8)) (va : List Arg) : Except Fault Console := do
  let (c, _) ← printf font c format va
  crlf font c

def kLog (c : Console) (format : List (BitVec 8)) (va : List Arg) : Except Fault Console := do
  let c := c.setTextColour PLAIN_TEXT_COLOUR
  let c ← c.kPuts font (cString "[LOG] Kernel: ")
  finishLine font c format va

/-- The body of the log calls with a tag in a colour of its own. -/
def kTagged (colour : BitVec 32) (tag closing : String) (c : Console) (format : List (BitVec 8))
    (va : List Arg) : Except Fault Console := do
  let c ← c.kPuts font (cString "[")
  let c := c.setTextColour colour
  let c ← c.kPuts font (cString tag)
  let c := c.setTextColour PLAIN_TEXT_COLOUR
  let c ← c.kPuts font (cString closing)
  finishLine font c format va

def kWrn : Console → List (BitVec 8) → List Arg → Except Fault Console :=
  kTagged font WRN_TEXT_COLOUR "WRN" "] Kernel: "

def kErr : Console → List (BitVec 8) → List Arg → Except Fault Console :=
  kTagged font ERR_TEXT_COLOUR "ERR" "] Kernel: "

end Log

theorem cString_eq (s : String) (i : Nat) : cString s i = (literal s)[i]?.getD 0 := by
  rw [literal, List.getElem?_map]
  rfl

theorem textFrom_cString {s : String} (h0 : 0 ∉ literal s) (hlen : (literal s).length < 256) :
    textFrom (cString s) 0 = literal s := by
  have hat : ∀ i, (h : i < (literal s).length) → cString s i = (literal s)[i] := by
    intro i h
    rw [cString_eq, List.getElem?_eq_getElem h]
    rfl
  have hstring : CString (cString s) (literal s).length := by
    refine ⟨?_, fun i hi => ?_⟩
    · rw [cString_eq, List.getElem?_eq_none (Nat.le_refl _)]
      rfl
    · rw [hat i hi]
      exact ne_of_mem_of_not_mem (List.getElem_mem hi) h0
  rw [hstring.textFrom_eq hlen (Nat.zero_le _), AdaOS.stringText]
  apply List.ext_getElem
  · rw [List.length_map, List.length_range', Nat.sub_zero]
  · intro i _ hi
    rw [List.getElem_map, List.getElem_range', Nat.one_mul, Nat.zero_add, hat i hi]

section Prints
variable {fb : Framebuffer} {c : Console} {format t : List (BitVec 8)} {va : List Arg}

theorem puts_prints (h : c.On fb) (hf : fb.Fits) (hs : 128 ≤ fb.stride) (font : Nat → BitVec 64)
    {s : String} (h0 : 0 ∉ literal s) (hlen : (literal s).length < 256) :
    ∃ d, c.kPuts font (cString s) = .ok d ∧ c.Prints fb d (literal s) := by
  have hend : ∃ i < 256, cString s i = 0 := by
    refine ⟨(literal s).length, hlen, ?_⟩
    rw [cString_eq, List.getElem?_eq_none (Nat.le_refl _)]
    rfl
  have hprints := h.kPuts_prints hf hs font hend
  rwa [textFrom_cString h0 hlen] at hprints

theorem finishLine_prints (h : c.On fb) (hf : fb.Fits) (hs : 128 ≤ fb.stride)
    (font : Nat → BitVec 64) (htext : text format va = emits t) (h0 : 0 ∉ t)
    (hlen : t.length < 2 ^ 64) :
    ∃ d, finishLine font c format va = .ok d ∧ c.Prints fb d (t ++ literal "\r\n") := by
  obtain ⟨d, hd, hline⟩ := printf_says h hf hs font htext h0 hlen
  obtain ⟨e, he, hend⟩ := puts_prints hline.on hf hs font (by decide : 0 ∉ literal "\r\n")
    (by decide)
  refine ⟨e, ?_, hline.append hend⟩
  rw [finishLine, hd]
  exact he

/-- What a call of `k_log` prints. -/
def logText (t : List (BitVec 8)) : List (BitVec 8) :=
  literal "[LOG] Kernel: " ++ (t ++ literal "\r\n")

theorem kLog_prints (h : c.On fb) (hf : fb.Fits) (hs : 128 ≤ fb.stride) (font : Nat → BitVec 64)
    (htext : text format va = emits t) (h0 : 0 ∉ t) (hlen : t.length < 2 ^ 64) :
    ∃ d, kLog font c format va = .ok d ∧
      (c.setTextColour PLAIN_TEXT_COLOUR).Prints fb d (logText t) := by
  have hon : (c.setTextColour PLAIN_TEXT_COLOUR).On fb := ⟨h.screen, h.x_lt, h.y_lt⟩
  obtain ⟨d, hd, htag⟩ := puts_prints hon hf hs font (by decide : 0 ∉ literal "[LOG] Kernel: ")
    (by decide)
  obtain ⟨e, he, hline⟩ := finishLine_prints htag.on hf hs font htext h0 hlen
  refine ⟨e, ?_, htag.append hline⟩
  rw [kLog, bind_of_ok hd]
  exact he

/-- What a log call with a tag prints. -/
def taggedText (tag closing : String) (t : List (BitVec 8)) : List (BitVec 8) :=
  literal "[" ++ (literal tag ++ (literal closing ++ (t ++ literal "\r\n")))

theorem kTagged_prints (h : c.On fb) (hf : fb.Fits) (hs : 128 ≤ fb.stride)
    (font : Nat → BitVec 64) (colour : BitVec 32) {tag closing : String}
    (htag : 0 ∉ literal tag ∧ (literal tag).length < 256)
    (hclosing : 0 ∉ literal closing ∧ (literal closing).length < 256)
    (htext : text format va = emits t) (h0 : 0 ∉ t) (hlen : t.length < 2 ^ 64) :
    ∃ d, kTagged font colour tag closing c format va = .ok d ∧
      (c.setTextColour PLAIN_TEXT_COLOUR).Prints fb d (taggedText tag closing t) := by
  obtain ⟨d₁, hd₁, hopen⟩ := puts_prints h hf hs font (by decide : 0 ∉ literal "[") (by decide)
  obtain ⟨d₂, hd₂, hname⟩ := puts_prints (hopen.setTextColour colour).on hf hs font htag.1 htag.2
  obtain ⟨d₃, hd₃, hclose⟩ := puts_prints (hname.setTextColour PLAIN_TEXT_COLOUR).on hf hs font
    hclosing.1 hclosing.2
  obtain ⟨d₄, hd₄, hline⟩ := finishLine_prints hclose.on hf hs font htext h0 hlen
  have hname' := hname.setTextColour PLAIN_TEXT_COLOUR
  have hopen' := hopen.setTextColour PLAIN_TEXT_COLOUR
  refine ⟨d₄, ?_, hopen'.append (hname'.append (hclose.append hline))⟩
  rw [kTagged, bind_of_ok hd₁, bind_of_ok hd₂, bind_of_ok hd₃]
  exact hd₄

end Prints

end AdaOS.Printf
