import AdaOS.FontLookups
import AdaOS.Positional

namespace AdaOS
set_option autoImplicit true
open Positional

/-- The states `div`, `digit_count` that the first loop of `k_puti` comes to. -/
inductive ScaleTurns (n : Nat) : Nat → Nat → Prop
  | start : ScaleTurns n 1 1
  | turn (h : ScaleTurns n div digitCount) (hle : div ≤ n / 10) :
      ScaleTurns n (u32 (div * 10)) (digitCount + 1)

/-- The states `n`, `div`, `digit_count` that the second loop comes to. -/
inductive DigitTurns (n₀ div₀ digitCount₀ : Nat) : Nat → Nat → Nat → Prop
  | start : DigitTurns n₀ div₀ digitCount₀ n₀ div₀ digitCount₀
  | turn (h : DigitTurns n₀ div₀ digitCount₀ n div (digitCount + 1)) :
      DigitTurns n₀ div₀ digitCount₀ (n % div) (div / 10) digitCount

/-- The character codes of a decimal numeral without leading zeros. -/
structure Numeral (n : Nat) (codes : List Nat) : Prop where
  digits : ∀ code ∈ codes, 48 ≤ code ∧ code ≤ 57
  canonical : Canonical 10 n (codes.map (· - 48))

def ConsoleEvent.fontIndex : ConsoleEvent → Option Nat
  | .read i => some i
  | .wrote _ => none

/-- A byte sent to the serial port, when it is not the line feed of a row that is full. -/
def ConsoleEvent.serialChar : ConsoleEvent → Option (BitVec 8)
  | .read _ => none
  | .wrote byte => if byte = 0x0a then none else some byte

/-- From one console to the other `font` is read at given indices, and given bytes are sent. -/
def Console.Emits (indices : List Nat) (bytes : List (BitVec 8)) (c d : Console) : Prop :=
  ∃ new, d.trace = new ++ c.trace ∧ new.reverse.filterMap ConsoleEvent.fontIndex = indices ∧
    new.reverse.filterMap ConsoleEvent.serialChar = bytes

/-- The characters are printed one after the other, each with its glyph at the cursor. -/
def CodesDrawn (font : Nat → BitVec 64) : List Nat → Console → Console → Prop
  | [], c, d => c = d
  | code :: codes, c, d => ∃ e, c.Draws font code e ∧ CodesDrawn font codes e d

def digitCodes (n div : Nat) : Nat → List Nat
  | 0 => []
  | digitCount + 1 => u32 (n / div + 48) :: digitCodes (n % div) (div / 10) digitCount

theorem printDigits_eq (font : Nat → BitVec 64) (c : Console) (n div digitCount : Nat) :
    c.printDigits font n div digitCount =
      (digitCodes n div digitCount).foldlM (Console.printDigit font) c := by
  induction digitCount generalizing c n div with
  | zero => rfl
  | succ digitCount ih =>
    rw [Console.printDigits, digitCodes, List.foldlM_cons]
    exact bind_congr_ok fun d _ => ih d _ _

theorem ScaleTurns.pow (h : ScaleTurns n div digitCount) (hn : n < 2 ^ 32) :
    ∃ k, div = 10 ^ k ∧ digitCount = k + 1 ∧ (k = 0 ∨ 10 ^ k ≤ n) := by
  induction h with
  | start => exact ⟨0, rfl, rfl, .inl rfl⟩
  | turn h hle ih =>
    obtain ⟨k, rfl, rfl, hk⟩ := ih
    have hpow : 10 ^ k * 10 = 10 ^ (k + 1) := (Nat.pow_succ 10 k).symm
    refine ⟨k + 1, ?_, rfl, .inr ?_⟩
    · rw [u32_of_lt (by omega), hpow]
    · omega

theorem scaleLoop_turns (h : scaleLoop n fuel div digitCount = .ok r)
    (hturns : ScaleTurns n div digitCount) : ScaleTurns n r.1 r.2 ∧ n / 10 < r.1 := by
  induction fuel generalizing div digitCount with
  | zero => cases h
  | succ fuel ih =>
    rw [scaleLoop] at h
    split_ifs at h with hle
    · exact ih h (.turn hturns hle)
    · cases h
      exact ⟨hturns, Nat.lt_of_not_le hle⟩

theorem scaleLoop_eq (hn : n < 2 ^ 32) :
    ∃ k, scaleLoop n 10 1 1 = .ok (10 ^ k, k + 1) ∧ n < 10 ^ (k + 1) ∧ (k = 0 ∨ 10 ^ k ≤ n) := by
  obtain ⟨⟨div, digitCount⟩, hscale⟩ : ∃ r, scaleLoop n 10 (10 ^ 0) 1 = .ok r :=
    scaleLoop_ok hn (by decide) (by decide) 1
  rw [Nat.pow_zero] at hscale
  obtain ⟨hturns, hlast⟩ := scaleLoop_turns hscale .start
  obtain ⟨k, rfl, rfl, hk⟩ := hturns.pow hn
  refine ⟨k, hscale, ?_, hk⟩
  rw [Nat.pow_succ]
  omega

theorem DigitTurns.pow (h : DigitTurns n₀ div₀ digitCount₀ n div digitCount)
    (h₀ : ∀ k, digitCount₀ = k + 1 → div₀ = 10 ^ k) : ∀ k, digitCount = k + 1 → div = 10 ^ k := by
  induction h with
  | start => exact h₀
  | turn h ih =>
    rintro k rfl
    rw [ih (k + 1) rfl, Nat.pow_succ, Nat.mul_div_cancel _ (by decide)]

theorem digitCode_eq (hn : n < 10 ^ (k + 1)) : u32 (n / 10 ^ k + 48) = n / 10 ^ k + 48 := by
  have hdigit := places_lt hn _ (.head _)
  exact u32_of_lt (by omega)

theorem digitCodes_eq (hn : n < 10 ^ (k + 1)) :
    digitCodes n (10 ^ k) (k + 1) = (places 10 n (k + 1)).map (· + 48) := by
  induction k generalizing n with
  | zero =>
    rw [digitCodes, digitCode_eq hn]
    rfl
  | succ k ih =>
    have hdiv : 10 ^ (k + 1) / 10 = 10 ^ k := by
      rw [Nat.pow_succ, Nat.mul_div_cancel _ (by decide)]
    rw [digitCodes, digitCode_eq hn, hdiv, ih (Nat.mod_lt _ (Nat.pow_pos (by decide)))]
    rfl

theorem map_add_sub (l : List Nat) : (l.map (· + 48)).map (· - 48) = l := by
  rw [List.map_map]
  exact (List.map_congr_left fun x _ => Nat.add_sub_cancel x 48).trans (List.map_id l)

theorem numeral_digitCodes (hn : n < 10 ^ (k + 1)) (hle : k = 0 ∨ 10 ^ k ≤ n) :
    Numeral n (digitCodes n (10 ^ k) (k + 1)) := by
  rw [digitCodes_eq hn]
  refine ⟨fun code hcode => ?_, ?_⟩
  · obtain ⟨x, hx, rfl⟩ := List.mem_map.1 hcode
    have hlt := places_lt hn x hx
    omega
  · rw [map_add_sub]
    exact canonical_places hn hle

theorem Numeral.unique (h : Numeral n codes) (h' : Numeral n codes') : codes = codes' := by
  have hback : ∀ {l}, Numeral n l → (l.map (· - 48)).map (· + 48) = l := by
    intro l hl
    rw [List.map_map]
    refine (List.map_congr_left fun code hcode => ?_).trans (List.map_id l)
    exact Nat.sub_add_cancel (hl.digits code hcode).1
  rw [← hback h, ← hback h', h.canonical.unique (by decide) h'.canonical]

namespace Console.Emits
variable {c d e : Console}

theorem trans (hcd : c.Emits indices bytes d) (hde : d.Emits indices' bytes' e) :
    c.Emits (indices ++ indices') (bytes ++ bytes') e := by
  obtain ⟨first, hd, hreads, htext⟩ := hcd
  obtain ⟨second, he, hreads', htext'⟩ := hde
  refine ⟨second ++ first, ?_, ?_, ?_⟩
  · rw [he, hd, List.append_assoc]
  · rw [List.reverse_append, List.filterMap_append, hreads, hreads']
  · rw [List.reverse_append, List.filterMap_append, htext, htext']

theorem of_lineFeeds (h : c.Logs (· = .wrote 0x0a) d) : c.Emits [] [] d := by
  obtain ⟨new, hnew, hall⟩ := h
  refine ⟨new, hnew, ?_, ?_⟩
  · refine List.filterMap_eq_nil_iff.2 fun e he => ?_
    rw [hall e (List.mem_reverse.1 he), ConsoleEvent.fontIndex]
  · refine List.filterMap_eq_nil_iff.2 fun e he => ?_
    rw [hall e (List.mem_reverse.1 he), ConsoleEvent.serialChar, if_pos rfl]

theorem read (c : Console) (i : Nat) : c.Emits [i] [] (c.log (.read i)) :=
  ⟨[.read i], rfl, rfl, rfl⟩

theorem serialWrite (c : Console) (hbyte : byte ≠ 0x0a) :
    c.Emits [] [byte] (c.serialWrite byte) :=
  ⟨[.wrote byte], rfl, rfl, List.filterMap_cons_some (if_neg hbyte)⟩

end Console.Emits

theorem Console.printDigit_emits {c d : Console} (h : c.printDigit font code = .ok d)
    (hcode : 48 ≤ code ∧ code ≤ 57) :
    c.Draws font code d ∧ c.Emits [code] [BitVec.ofNat 8 code] d := by
  have hdigit : ¬(code > 57 ∨ code < 48) := by omega
  rw [Console.printDigit] at h
  simp only [if_neg hdigit] at h
  obtain ⟨e, hdraw, hmove⟩ := bind_ok h
  have hbyte : BitVec.ofNat 8 code ≠ 0x0a := by
    intro hbyte
    have hnat := congrArg BitVec.toNat hbyte
    rw [BitVec.toNat_ofNat, Nat.mod_eq_of_lt (by omega)] at hnat
    change code = 10 at hnat
    omega
  have hemits := (((Emits.read c code).trans (.of_lineFeeds (.drawSubpixels hdraw))).trans
    (.serialWrite e hbyte)).trans (.of_lineFeeds (.advanceCursor hmove))
  exact ⟨⟨e, [BitVec.ofNat 8 code], hdraw, hmove⟩, hemits⟩

theorem printDigits_emits {codes : List Nat} {c d : Console}
    (h : codes.foldlM (Console.printDigit font) c = .ok d)
    (hcodes : ∀ code ∈ codes, 48 ≤ code ∧ code ≤ 57) :
    CodesDrawn font codes c d ∧ c.Emits codes (codes.map (BitVec.ofNat 8)) d := by
  induction codes generalizing c with
  | nil =>
    cases h
    exact ⟨rfl, [], rfl, rfl, rfl⟩
  | cons code codes ih =>
    rw [List.foldlM_cons] at h
    obtain ⟨e, hfirst, hrest⟩ := bind_ok h
    obtain ⟨hcode, hcodes⟩ := List.forall_mem_cons.1 hcodes
    obtain ⟨hdraw, hemit⟩ := Console.printDigit_emits hfirst hcode
    obtain ⟨hdrawn, hemits⟩ := ih hrest hcodes
    exact ⟨⟨e, hdraw, hdrawn⟩, hemit.trans hemits⟩

/-- The powers of ten are in 32 bits, no divisor is zero, and what is looked up, drawn and sent to
the serial port is the numeral of the number. -/
theorem kPuti_numeral (font : Nat → BitVec 64) (n : BitVec 32) :
    ∃ div digitCount codes, scaleLoop n.toNat 10 1 1 = .ok (div, digitCount) ∧
      (∀ div' count, ScaleTurns n.toNat div' count → div' ≤ n.toNat / 10 → div' * 10 < 2 ^ 32) ∧
      (∀ m div' count, DigitTurns n.toNat div digitCount m div' (count + 1) → div' ≠ 0) ∧
      Numeral n.toNat codes ∧ (∀ codes', Numeral n.toNat codes' → codes' = codes) ∧
      ∀ c, c.kPuti font n = codes.foldlM (Console.printDigit font) c ∧
        ∀ d, c.kPuti font n = .ok d →
          CodesDrawn font codes c d ∧ c.Emits codes (codes.map (BitVec.ofNat 8)) d := by
  obtain ⟨k, hscale, hlt, hle⟩ := scaleLoop_eq n.isLt
  have hnumeral := numeral_digitCodes hlt hle
  have hprint : ∀ c, Console.kPuti font c n =
      (digitCodes n.toNat (10 ^ k) (k + 1)).foldlM (Console.printDigit font) c := by
    intro c
    rw [Console.kPuti, bind_of_ok hscale]
    exact printDigits_eq font c _ _ _
  refine ⟨10 ^ k, k + 1, _, hscale, ?_, ?_, hnumeral, fun _ h => h.unique hnumeral,
    fun c => ⟨hprint c, fun d hd => ?_⟩⟩
  · intro div' count _ hdiv
    have hn := n.isLt
    omega
  · intro m div' count hturns
    have hpow : ∀ j, k + 1 = j + 1 → 10 ^ k = 10 ^ j := fun j hj => by rw [Nat.succ.inj hj]
    rw [hturns.pow hpow count rfl]
    exact Nat.ne_of_gt (Nat.pow_pos (by decide))
  · rw [hprint c] at hd
    exact printDigits_emits hd hnumeral.digits

end AdaOS
