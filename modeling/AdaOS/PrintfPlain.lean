import AdaOS.PrintfSinks
import AdaOS.PrintfStrings

namespace AdaOS.Printf
set_option autoImplicit true

open Traced

/-- Digits behind as many zeros as fill the width. -/
def zeroed (width : Nat) (ds : List (BitVec 8)) : List (BitVec 8) :=
  List.replicate (width - ds.length) (ch '0') ++ ds

/-- What `%d` prints. -/
def decimal (x : Int) : List (BitVec 8) :=
  if x < 0 then ch '-' :: standardDigits false 10 x.natAbs else standardDigits false 10 x.natAbs

theorem length_standardDigits_le (uppercase : Bool) (hb : 1 < base) (hk : 0 < k)
    (hn : n < base ^ k) : (standardDigits uppercase base n).length ≤ k := by
  by_cases h0 : n = 0
  · rw [standardDigits, if_pos h0]
    exact hk
  · rw [length_standardDigits _ h0]
    exact (Nat.digits_length_le_iff hb n).2 hn

/-- The flags of a number that is padded with zeros or not at all. -/
structure Plain (p : Parse) : Prop where
  left : p.flags.left = false
  hash : p.flags.hash = false
  plus : p.flags.plus = false
  space : p.flags.space = false
  precision : p.flags.precision = false
  padded : p.flags.zeropad = true ∨ p.width = 0
  width : p.width ≤ ntoaBufferSize

theorem integerText_plain {h : Header} {c : BitVec 8} (hp : h.parse va = .ok p) (hplain : Plain p)
    (hb : specifierBase c = 10 ∨ specifierBase c = 16) :
    integerText c p arg =
      standardNumber (if integerValue c p.flags arg < 0 then [ch '-'] else [])
        (standardDigits (c = ch 'X') (specifierBase c) (integerValue c p.flags arg).natAbs) 0
        p.width p.flags.zeropad := by
  have hprec : p.precision = 0 := (Header.parse_fresh hp).2 hplain.precision
  have hsign : standardSign c p.flags (integerValue c p.flags arg) =
      if integerValue c p.flags arg < 0 then [ch '-'] else [] := by
    rw [standardSign, hplain.plus, hplain.space, if_neg Bool.false_ne_true,
      if_neg Bool.false_ne_true]
    split_ifs with hunsigned hneg
    · rw [integerValue, hunsigned, if_neg Bool.false_ne_true] at hneg
      omega
    all_goals rfl
  have hstandard : standardInteger c p arg =
      standardNumber (if integerValue c p.flags arg < 0 then [ch '-'] else [])
        (standardDigits (c = ch 'X') (specifierBase c) (integerValue c p.flags arg).natAbs) 0
        p.width p.flags.zeropad := by
    rw [standardInteger, hsign, hplain.precision, hplain.left, hprec]
    simp only [Bool.false_eq_true, false_and, and_false, if_false, Bool.not_false, Bool.and_true]
  have hvalue := natAbs_integerValue_lt c p.flags arg
  have hdigits : (standardDigits (c = ch 'X') (specifierBase c)
      (integerValue c p.flags arg).natAbs).length ≤ 20 := by
    apply length_standardDigits_le
    · obtain hb | hb := hb <;> rw [hb] <;> decide
    · decide
    · have hbig : 2 ^ 64 ≤ specifierBase c ^ 20 := by
        obtain hb | hb := hb <;> rw [hb] <;> decide
      exact Nat.lt_of_lt_of_le hvalue hbig
  have hone : (if integerValue c p.flags arg < 0 then [ch '-'] else []).length ≤ 1 := by
    split <;> decide
  have hwidth := hplain.width
  have hlen := length_standardNumber (if integerValue c p.flags arg < 0 then [ch '-'] else [])
    (standardDigits (c = ch 'X') (specifierBase c) (integerValue c p.flags arg).natAbs) 0
    p.width p.flags.zeropad
  generalize (if integerValue c p.flags arg < 0 then [ch '-'] else []) = sign at *
  have hfits : (standardInteger c p arg).length ≤ ntoaBufferSize := by
    rw [hstandard, hlen]
    rw [ntoaBufferSize] at hwidth ⊢
    split <;> omega
  have hleft : p.flags.left = true → p.precision = 0 ∨ (integerValue c p.flags arg ≠ 0 ∧
      p.precision ≤
        (Nat.digits (specifierBase c) (integerValue c p.flags arg).natAbs).length) :=
    fun _ => .inl hprec
  have hspaces : p.width - (standardInteger c p arg).length = 0 := by
    rw [hstandard, hlen]
    obtain hz | hw := hplain.padded
    · rw [hz, if_pos rfl]
      omega
    · omega
  rw [integerText_standard hp (.inl hplain.hash) hfits hleft, hplain.left, standardField,
    if_neg Bool.false_ne_true, hspaces, hstandard]
  rfl

theorem integerText_natural {h : Header} {c : BitVec 8} (hp : h.parse va = .ok p)
    (hplain : Plain p) (hb : specifierBase c = 10 ∨ specifierBase c = 16)
    (hv : integerValue c p.flags arg = (n : Nat)) :
    integerText c p arg = zeroed p.width (standardDigits (c = ch 'X') (specifierBase c) n) := by
  have hpos : ¬ ((n : Nat) : Int) < 0 := by omega
  rw [integerText_plain hp hplain hb, hv, if_neg hpos, Int.natAbs_natCast, standardNumber, zeroed]
  simp only [List.nil_append, List.length_nil, Nat.zero_add, Nat.zero_sub, List.replicate_zero]
  obtain hz | hw := hplain.padded
  · rw [hz, if_pos rfl]
  · rw [hw, Nat.zero_sub, ite_self]

theorem standardField_zero (t : List (BitVec 8)) : standardField t 0 false = t := by
  rw [standardField, if_neg Bool.false_ne_true, Nat.zero_sub]
  rfl

theorem zeroed_zero (ds : List (BitVec 8)) : zeroed 0 ds = ds := by
  rw [zeroed, Nat.zero_sub]
  rfl

theorem text_integer {h : Header} {c : BitVec 8} (hc : isInteger c = true)
    (hp : h.parse (arg :: va) = .ok p) (hva : p.va = arg :: va) :
    (Piece.directive h c).text (arg :: va) = emits (integerText c p arg) >>= fun _ => pure va := by
  rw [Piece.text, hp]
  change specifierText c p = _
  rw [specifierText, if_pos hc, hva]
  rfl

/-- The directive `%d`. -/
def plainDecimal : Piece := .directive ⟨[], .absent, none, .none⟩ (ch 'd')

/-- The directive `%x`. -/
def plainHex : Piece := .directive ⟨[], .absent, none, .none⟩ (ch 'x')

/-- The directive `%0wd`, for a width of one digit. -/
def zeroPadded (w : Char) : Piece := .directive ⟨[.zero], .digits [ch w], none, .none⟩ (ch 'd')

/-- The directive `%llu`. -/
def longDecimal : Piece := .directive ⟨[], .absent, none, .ll⟩ (ch 'u')

/-- The directive `%016llx`. -/
def longHex : Piece :=
  .directive ⟨[.zero], .digits [ch '1', ch '6'], none, .ll⟩ (ch 'x')

/-- The directive `%s`. -/
def plainString : Piece := .directive ⟨[], .absent, none, .none⟩ (ch 's')

/-- The directive `%p`. -/
def plainPointer : Piece := .directive ⟨[], .absent, none, .none⟩ (ch 'p')

section Directives
variable (arg : Arg) (va : List Arg)

theorem text_plainDecimal :
    plainDecimal.text (arg :: va) = emits (decimal arg.int.toInt) >>= fun _ => pure va := by
  have hp : (⟨[], .absent, none, .none⟩ : Header).parse (arg :: va) =
      .ok ⟨.none, 0, 0, [], arg :: va⟩ := rfl
  have hplain : Plain ⟨.none, 0, 0, [], arg :: va⟩ :=
    ⟨rfl, rfl, rfl, rfl, rfl, .inr rfl, Nat.zero_le _⟩
  have hvalue : integerValue (ch 'd') .none arg = arg.int.toInt :=
    BitVec.toInt_signExtend_of_le (by decide)
  have hnumber : ∀ sign ds : List (BitVec 8), standardNumber sign ds 0 0 false = sign ++ ds := by
    intro sign ds
    simp only [standardNumber, Nat.zero_sub, Bool.false_eq_true, if_false, List.replicate_zero,
      List.nil_append]
  have hupper : decide (ch 'd' = ch 'X') = false := rfl
  have hbase : specifierBase (ch 'd') = 10 := rfl
  have hpad : Flags.none.zeropad = false := rfl
  rw [plainDecimal, text_integer rfl hp rfl, integerText_plain hp hplain (.inl rfl)]
  dsimp only
  rw [hvalue, hpad, hnumber, hupper, hbase, decimal]
  split <;> rfl

theorem text_zeroPadded (hx : arg.int.toInt = (n : Nat)) (hw : number 0 [ch w] ≤ ntoaBufferSize) :
    (zeroPadded w).text (arg :: va) =
      emits (zeroed (number 0 [ch w]) (standardDigits false 10 n)) >>= fun _ => pure va := by
  have hp : (⟨[.zero], .digits [ch w], none, .none⟩ : Header).parse (arg :: va) =
      .ok ⟨Flags.none.set .zero, number 0 [ch w], 0, [], arg :: va⟩ := rfl
  have hplain : Plain ⟨Flags.none.set .zero, number 0 [ch w], 0, [], arg :: va⟩ :=
    ⟨rfl, rfl, rfl, rfl, rfl, .inl rfl, hw⟩
  have hvalue : integerValue (ch 'd') (Flags.none.set .zero) arg = arg.int.toInt :=
    BitVec.toInt_signExtend_of_le (by decide)
  rw [zeroPadded, text_integer rfl hp rfl,
    integerText_natural hp hplain (.inl rfl) (hvalue.trans hx)]
  rfl

theorem text_plainHex :
    plainHex.text (arg :: va) =
      emits (standardDigits false 16 arg.int.toNat) >>= fun _ => pure va := by
  have hp : (⟨[], .absent, none, .none⟩ : Header).parse (arg :: va) =
      .ok ⟨.none, 0, 0, [], arg :: va⟩ := rfl
  have hplain : Plain ⟨.none, 0, 0, [], arg :: va⟩ :=
    ⟨rfl, rfl, rfl, rfl, rfl, .inr rfl, Nat.zero_le _⟩
  have hvalue : integerValue (ch 'x') .none arg = arg.int.toNat := by
    change ((arg.int.setWidth 64).toNat : Int) = _
    rw [BitVec.toNat_setWidth_of_le (by decide)]
  rw [plainHex, text_integer rfl hp rfl, integerText_natural hp hplain (.inr rfl) hvalue,
    zeroed_zero]
  rfl

theorem text_longDecimal :
    longDecimal.text (arg :: va) =
      emits (standardDigits false 10 arg.word.toNat) >>= fun _ => pure va := by
  have hp : (⟨[], .absent, none, .ll⟩ : Header).parse (arg :: va) =
      .ok ⟨Flags.none.setLength .ll, 0, 0, [], arg :: va⟩ := rfl
  have hplain : Plain ⟨Flags.none.setLength .ll, 0, 0, [], arg :: va⟩ :=
    ⟨rfl, rfl, rfl, rfl, rfl, .inr rfl, Nat.zero_le _⟩
  rw [longDecimal, text_integer rfl hp rfl, integerText_natural hp hplain (.inl rfl) rfl,
    zeroed_zero]
  rfl

theorem text_longHex :
    longHex.text (arg :: va) =
      emits (zeroed 16 (standardDigits false 16 arg.word.toNat)) >>= fun _ => pure va := by
  have hp : (⟨[.zero], .digits [ch '1', ch '6'], none, .ll⟩ : Header).parse (arg :: va) =
      .ok ⟨(Flags.none.set .zero).setLength .ll, 16, 0, [], arg :: va⟩ := rfl
  have hplain : Plain ⟨(Flags.none.set .zero).setLength .ll, 16, 0, [], arg :: va⟩ :=
    ⟨rfl, rfl, rfl, rfl, rfl, .inl rfl, (by decide : 16 ≤ ntoaBufferSize)⟩
  rw [longHex, text_integer rfl hp rfl, integerText_natural hp hplain (.inr rfl) rfl]
  rfl

theorem text_plainString (hend : 0 ∈ arg.target) (hlen : arg.target.length < 2 ^ 32) :
    plainString.text (arg :: va) = emits (chars arg.target) >>= fun _ => pure va := by
  have hp : (⟨[], .absent, none, .none⟩ : Header).parse (arg :: va) =
      .ok ⟨.none, 0, 0, [], arg :: va⟩ := rfl
  have htext : stringArgText ⟨.none, 0, 0, [], arg :: va⟩ arg = emits (chars arg.target) := by
    rw [stringArgText_eq (fun _ => rfl) hlen, if_pos (.inl hend)]
    exact congrArg emits (standardField_zero _)
  have hspec : plainString.text (arg :: va) =
      stringArgText ⟨.none, 0, 0, [], arg :: va⟩ arg >>= fun _ => pure va := by
    rw [plainString, Piece.text, hp]
    rfl
  rw [hspec, htext]

theorem text_plainPointer :
    plainPointer.text (arg :: va) =
      emits (zeroed 16 (standardDigits true 16 arg.word.toNat)) >>= fun _ => pure va := by
  have hp : (⟨[], .absent, none, .none⟩ : Header).parse (arg :: va) =
      .ok ⟨.none, 0, 0, [], arg :: va⟩ := rfl
  have htext : pointerText ⟨.none, 0, 0, [], arg :: va⟩ arg =
      zeroed 16 (standardDigits true 16 arg.word.toNat) := by
    have hlt : arg.word.toNat < 16 ^ 16 := arg.word.isLt
    have hlen := length_standardDigits_le true (by decide) (by decide) hlt
    have hnumber : standardNumber [] (standardDigits true 16 arg.word.toNat) 0 16 true =
        zeroed 16 (standardDigits true 16 arg.word.toNat) := by
      simp only [standardNumber, zeroed, List.nil_append, List.length_nil, Nat.zero_add,
        Nat.zero_sub, List.replicate_zero, if_true]
    have hzeroed : (zeroed 16 (standardDigits true 16 arg.word.toNat)).length = 16 := by
      rw [zeroed, List.length_append, List.length_replicate]
      omega
    have hdigits : (valueDigits { Flags.none with zeropad := true, uppercase := true } 16
        arg.word.toNat).reverse = standardDigits true 16 arg.word.toNat := by
      rw [valueDigits_reverse (by decide) (Nat.lt_trans hlt (by decide))]
      exact if_neg fun h => Bool.false_ne_true h.2
    have hformat : ∀ buf : List (BitVec 8), (standardNumber [] buf.reverse 0 16 true).length ≤ 32 →
        formatText buf false 16 0 16 { Flags.none with zeropad := true, uppercase := true } =
          standardField (standardNumber [] buf.reverse 0 16 true) 16 false := by
      intro buf hfits
      apply formatText_standard
      · rfl
      · exact fun h => absurd h Bool.false_ne_true
      · exact hfits
    change longText arg.word.toNat false 16 0 16
      { Flags.none with zeropad := true, uppercase := true } = _
    rw [longText_eq rfl, hformat, hdigits, hnumber, standardField, if_neg Bool.false_ne_true,
      hzeroed]
    · rfl
    · rw [hdigits, hnumber, hzeroed]
      decide
  rw [← htext, plainPointer, Piece.text, hp]
  rfl

end Directives

theorem ComesTo.lits {ps : List Piece} (h : ComesTo ps va t) (s : List (BitVec 8)) :
    ComesTo (s.map .lit ++ ps) va (s ++ t) := by
  induction s with
  | nil => exact h
  | cons c s ih => exact ih.lit c

/-- A character that stands for itself on the screen and on the port. -/
def Shown (b : BitVec 8) : Prop := b ≠ 0 ∧ b ≠ 0x0a ∧ b ≠ 0x0d ∧ b.toNat < 128

instance : DecidablePred Shown := fun b =>
  inferInstanceAs (Decidable (b ≠ 0 ∧ b ≠ 0x0a ∧ b ≠ 0x0d ∧ b.toNat < 128))

theorem shown_of_digit : ∀ c : BitVec 8, digitValue c ≠ none → Shown c := by decide

theorem digits_of_standard (uppercase : Bool) (hb : 1 < base) (hb' : base ≤ 16) (n : Nat) :
    ∃ ds : List Nat, standardDigits uppercase base n = (ds.map (digitChar uppercase)).reverse ∧
      (∀ d ∈ ds, d < 16) ∧ Nat.ofDigits base ds = n := by
  rw [standardDigits]
  split
  · rename_i h0
    refine ⟨[0], ?_, fun d hd => ?_, ?_⟩
    · cases uppercase <;> decide
    · rw [List.mem_singleton.1 hd]
      decide
    · rw [h0, Nat.ofDigits_singleton]
  · refine ⟨Nat.digits base n, rfl, fun d hd => ?_, Nat.ofDigits_digits base n⟩
    exact Nat.lt_of_lt_of_le (Nat.digits_lt_base hb hd) hb'

theorem shown_zeroed (uppercase : Bool) (hb : 1 < base) (hb' : base ≤ 16) (w n : Nat) :
    ∀ c ∈ zeroed w (standardDigits uppercase base n), Shown c := by
  obtain ⟨ds, hds, hlt, _⟩ := digits_of_standard uppercase hb hb' n
  intro c hc
  rw [zeroed, hds] at hc
  apply shown_of_digit
  obtain hzero | hdigit := List.mem_append.1 hc
  · rw [List.eq_of_mem_replicate hzero]
    decide
  · obtain ⟨d, hd, rfl⟩ := List.mem_map.1 (List.mem_reverse.1 hdigit)
    rw [digitValue_digitChar uppercase (hlt d hd)]
    exact Option.some_ne_none d

theorem shown_standardDigits (uppercase : Bool) (hb : 1 < base) (hb' : base ≤ 16) (n : Nat) :
    ∀ c ∈ standardDigits uppercase base n, Shown c := by
  have h := shown_zeroed uppercase hb hb' 0 n
  rwa [zeroed_zero] at h

theorem readNumber_zeroed (uppercase : Bool) (hb : 1 < base) (hb' : base ≤ 16) (w n : Nat) :
    readNumber base (zeroed w (standardDigits uppercase base n)) = n := by
  obtain ⟨ds, hds, hlt, hvalue⟩ := digits_of_standard uppercase hb hb' n
  rw [readNumber, zeroed, List.filterMap_append, filterMap_zeros, hds, ← List.map_reverse,
    filterMap_digits uppercase fun d hd => hlt d (List.mem_reverse.1 hd),
    Positional.value_eq_ofDigits, List.reverse_append, List.reverse_reverse, List.reverse_replicate,
    Nat.ofDigits_append_replicate_zero, hvalue]

theorem length_zeroed (h : ds.length ≤ w) : (zeroed w ds).length = w := by
  rw [zeroed, List.length_append, List.length_replicate]
  omega

end AdaOS.Printf
