import Mathlib.Data.Nat.Digits.Lemmas
import AdaOS.PrintfNumbers
import AdaOS.PrintfPieces

namespace AdaOS.Printf
set_option autoImplicit true

/-- The C standard's digits of a number, the first one first. -/
def standardDigits (uppercase : Bool) (base n : Nat) : List (BitVec 8) :=
  if n = 0 then [ch '0'] else ((Nat.digits base n).map (digitChar uppercase)).reverse

/-- The C standard's characters for a number apart from the spaces: at least `prec` digits, and the
zeros of the flag `0` after the sign. -/
def standardNumber (sign ds : List (BitVec 8)) (prec width : Nat) (zero : Bool) : List (BitVec 8) :=
  let body := List.replicate (prec - ds.length) (ch '0') ++ ds
  sign ++
    (List.replicate (if zero then width - (sign.length + body.length) else 0) (ch '0') ++ body)

def standardField (number : List (BitVec 8)) (width : Nat) (left : Bool) : List (BitVec 8) :=
  if left then number ++ spaces (width - number.length)
  else spaces (width - number.length) ++ number

/-- The C standard's sign of a signed conversion. -/
def standardSign (c : BitVec 8) (flags : Flags) (value : Int) : List (BitVec 8) :=
  if isSigned c = false then []
  else if value < 0 then [ch '-']
  else if flags.plus then [ch '+']
  else if flags.space then [ch ' ']
  else []

/-- What the C standard prescribes for an integer conversion without `#`, apart from the spaces. A
precision 0 leaves nothing of the number 0, and a precision or the flag `-` overrides the flag
`0`. -/
def standardInteger (c : BitVec 8) (p : Parse) (arg : Arg) : List (BitVec 8) :=
  let value := integerValue c p.flags arg
  let ds :=
    if value = 0 ∧ p.flags.precision = true ∧ p.precision = 0 then []
    else standardDigits (c = ch 'X') (specifierBase c) value.natAbs
  standardNumber (standardSign c p.flags value) ds p.precision p.width
    (p.flags.zeropad && !p.flags.precision && !p.flags.left)

theorem lowDigits_eq_digits (hb : 1 < base) (hv : value < base ^ (k + 1)) :
    lowDigits base (k + 1) value = if value = 0 then [0] else Nat.digits base value := by
  induction k generalizing value with
  | zero =>
    rw [Nat.zero_add, Nat.pow_one] at hv
    rw [lowDigits, Nat.mod_eq_of_lt hv, if_pos (Nat.div_eq_of_lt hv)]
    split
    · rename_i hzero
      rw [hzero]
    · rename_i hzero
      exact (Nat.digits_of_lt base value hzero hv).symm
  | succ k ih =>
    have hdiv : value / base < base ^ (k + 1) := by
      rw [Nat.pow_succ'] at hv
      exact Nat.div_lt_of_lt_mul hv
    rw [lowDigits, ih hdiv]
    by_cases hzero : value = 0
    · subst hzero
      rw [Nat.zero_mod, Nat.zero_div, if_pos rfl, if_pos rfl]
    · rw [if_neg hzero, Nat.digits_def' hb (Nat.pos_of_ne_zero hzero)]
      split
      · rename_i hquot
        rw [hquot, Nat.digits_zero]
      · rfl

theorem valueDigits_reverse (hb : 1 < base) (hv : value < base ^ ntoaBufferSize) (flags : Flags) :
    (valueDigits flags base value).reverse =
      if value = 0 ∧ flags.precision = true then []
      else standardDigits flags.uppercase base value := by
  have hzero : digitChar flags.uppercase 0 = ch '0' := by
    cases flags.uppercase <;> decide
  rw [valueDigits, standardDigits]
  by_cases hnone : value = 0 ∧ flags.precision = true
  · have hskip : ¬ ((!flags.precision) = true ∨ value ≠ 0) := by
      simp only [hnone.1, hnone.2, Bool.not_true, Bool.false_eq_true, ne_eq, not_true_eq_false,
        or_self, not_false_eq_true]
    rw [if_pos hnone, if_neg hskip, List.reverse_nil]
  · have hkeep : (!flags.precision) = true ∨ value ≠ 0 := by
      cases hp : flags.precision with
      | false => exact .inl rfl
      | true => exact .inr fun h0 => hnone ⟨h0, hp⟩
    rw [if_neg hnone, if_pos hkeep, ntoaDigits_eq, ntoaBufferSize, lowDigits_eq_digits hb hv]
    by_cases h0 : value = 0
    · rw [if_pos h0, if_pos h0, List.map_cons, List.map_nil, hzero, List.reverse_singleton]
    · rw [if_neg h0, if_neg h0]

theorem foldl_set (fs : List FlagChar) (flags : Flags) :
    (fs.foldl Flags.set flags).uppercase = flags.uppercase ∧
      (fs.foldl Flags.set flags).precision = flags.precision := by
  induction fs generalizing flags with
  | nil => exact ⟨rfl, rfl⟩
  | cons f fs ih =>
    rw [List.foldl_cons]
    obtain ⟨hu, hp⟩ := ih (flags.set f)
    rw [hu, hp]
    cases f <;> exact ⟨rfl, rfl⟩

theorem setLength_eq (flags : Flags) (len : Length) :
    (flags.setLength len).uppercase = flags.uppercase ∧
      (flags.setLength len).precision = flags.precision := by
  cases len <;> exact ⟨rfl, rfl⟩

theorem setWidth_eq {w : Count} (h : w.setWidth p = .ok q) :
    q.flags.uppercase = p.flags.uppercase ∧ q.flags.precision = p.flags.precision ∧
      q.precision = p.precision := by
  cases w with
  | absent =>
    cases h
    exact ⟨rfl, rfl, rfl⟩
  | digits ds =>
    cases h
    exact ⟨rfl, rfl, rfl⟩
  | star =>
    obtain ⟨r, _, h⟩ := bind_ok h
    dsimp only at h
    split_ifs at h
    · cases h
      exact ⟨rfl, rfl, rfl⟩
    · cases h
      exact ⟨rfl, rfl, rfl⟩

theorem setPrecision_eq {w : Count} (h : w.setPrecision p = .ok q) : q.flags = p.flags := by
  cases w with
  | absent =>
    cases h
    rfl
  | digits ds =>
    cases h
    rfl
  | star =>
    obtain ⟨r, _, h⟩ := bind_ok h
    cases h
    rfl

theorem Header.parse_fresh {h : Header} (hp : h.parse va = .ok p) :
    p.flags.uppercase = false ∧ (p.flags.precision = false → p.precision = 0) := by
  obtain ⟨q, hwidth, hp⟩ := bind_ok hp
  obtain ⟨r, hprecision, hp⟩ := bind_ok hp
  cases hp
  obtain ⟨hu, hq, hzero⟩ := setWidth_eq hwidth
  obtain ⟨hu₀, hq₀⟩ := foldl_set h.flags .none
  obtain ⟨hu', hp'⟩ := setLength_eq r.flags h.length
  dsimp only
  rw [hu', hp']
  cases hpr : h.precision with
  | none =>
    rw [hpr] at hprecision
    cases hprecision
    exact ⟨hu.trans hu₀, fun _ => hzero⟩
  | some c =>
    rw [hpr] at hprecision
    rw [setPrecision_eq hprecision]
    exact ⟨hu.trans hu₀, fun hfalse => (Bool.false_ne_true hfalse.symm).elim⟩

theorem length_signChars (negative : Bool) (flags : Flags) :
    (signChars negative flags).length =
      if negative || flags.plus || flags.space then 1 else 0 := by
  rw [signChars]
  cases negative
  all_goals
    cases flags.plus
    all_goals
      cases flags.space
      all_goals rfl

theorem padWidth_eq (negative : Bool) (width : Nat) (flags : Flags) :
    padWidth negative width flags =
      if flags.zeropad && !flags.left then width - (signChars negative flags).length
      else width := by
  rw [padWidth, length_signChars]
  cases flags.zeropad
  all_goals
    cases flags.left
    all_goals
      cases negative || flags.plus || flags.space
      all_goals simp
  intro hzero
  omega

theorem length_standardNumber (sign ds : List (BitVec 8)) (prec width : Nat) (zero : Bool) :
    (standardNumber sign ds prec width zero).length =
      sign.length + max (max prec ds.length) (if zero then width - sign.length else 0) := by
  rw [standardNumber]
  simp only [List.length_append, List.length_replicate]
  split <;> omega

/-- The zeros of the standard, where they fit the buffer. -/
theorem zeroCount_eq {negative : Bool} {prec width len : Nat}
    (hleft : flags.left = true → prec ≤ len)
    (hfits : (signChars negative flags).length + max (max prec len)
      (if flags.zeropad && !flags.left then width - (signChars negative flags).length else 0) ≤
        ntoaBufferSize) :
    len + zeroCount negative prec width flags len = max (max prec len)
      (if flags.zeropad && !flags.left then width - (signChars negative flags).length else 0) := by
  rw [zeroCount, padWidth_eq]
  rw [ntoaBufferSize] at *
  cases hl : flags.left with
  | true =>
    have hle := hleft hl
    rw [if_pos rfl, Bool.not_true, Bool.and_false, if_neg Bool.false_ne_true]
    omega
  | false =>
    rw [hl] at hfits
    cases hz : flags.zeropad with
    | true =>
      rw [hz] at hfits
      simp only [Bool.not_false, Bool.and_true, if_true, Bool.false_eq_true, if_false] at hfits ⊢
      omega
    | false =>
      rw [hz] at hfits
      simp only [Bool.false_and, Bool.false_eq_true, if_false] at hfits ⊢
      omega

/-- Where the standard's characters fit the buffer, they are what is printed. -/
theorem formatText_standard (hhash : flags.hash = false) {buf : List (BitVec 8)} {negative : Bool}
    {prec width : Nat} (hleft : flags.left = true → prec ≤ buf.length)
    (hfits : (standardNumber (signChars negative flags) buf.reverse prec width
      (flags.zeropad && !flags.left)).length ≤ ntoaBufferSize) (base : Nat) :
    formatText buf negative base prec width flags =
      standardField (standardNumber (signChars negative flags) buf.reverse prec width
        (flags.zeropad && !flags.left)) width flags.left := by
  have hlen := length_standardNumber (signChars negative flags) buf.reverse prec width
    (flags.zeropad && !flags.left)
  rw [List.length_reverse] at hlen
  rw [hlen] at hfits
  have hzeros := zeroCount_eq hleft hfits
  have hsign : numberSign negative prec width flags buf.length = signChars negative flags := by
    rw [numberSign]
    by_cases hnil : signChars negative flags = []
    · rw [hnil, ite_self]
    · have hpos := List.length_pos_iff.2 hnil
      exact if_pos (by omega)
  have hnumber : standardNumber (signChars negative flags) buf.reverse prec width
      (flags.zeropad && !flags.left) = signChars negative flags ++
        (List.replicate (zeroCount negative prec width flags buf.length) (ch '0') ++
          buf.reverse) := by
    have hcount : (if flags.zeropad && !flags.left then width - ((signChars negative flags).length +
        (prec - buf.length + buf.length)) else 0) + (prec - buf.length) =
          zeroCount negative prec width flags buf.length := by
      cases hz : flags.zeropad && !flags.left with
      | true =>
        rw [hz, if_pos rfl] at hzeros
        rw [if_pos rfl]
        omega
      | false =>
        rw [hz, if_neg Bool.false_ne_true] at hzeros
        rw [if_neg Bool.false_ne_true]
        omega
    rw [standardNumber]
    simp only [List.length_append, List.length_replicate, List.length_reverse]
    rw [← List.append_assoc (List.replicate _ _), List.replicate_append_replicate, hcount]
  have hlen' : (standardNumber (signChars negative flags) buf.reverse prec width
      (flags.zeropad && !flags.left)).length = buf.length +
        zeroCount negative prec width flags buf.length + (signChars negative flags).length := by
    rw [hlen, hzeros, Nat.add_comm]
  rw [formatText_eq hhash, standardField, hlen', spaceCount, hsign, padWidth_eq, hnumber]
  cases hl : flags.left with
  | true =>
    rw [Bool.not_true, Bool.and_false, if_neg Bool.false_ne_true, if_pos rfl, Bool.false_and]
    simp only [padding, Bool.false_eq_true, if_false, if_true, List.nil_append, List.append_assoc]
  | false =>
    cases hz : flags.zeropad with
    | true =>
      rw [hz, hl] at hzeros
      have hwide : width - (buf.length + zeroCount negative prec width flags buf.length +
          (signChars negative flags).length) = 0 := by
        simp only [Bool.not_false, Bool.and_true, if_true] at hzeros
        omega
      simp only [hwide, padding, Bool.not_false, Bool.not_true, Bool.and_false, Bool.false_eq_true,
        if_false, spaces, List.replicate_zero, List.nil_append, List.append_nil]
    | false =>
      simp only [padding, Bool.not_false, Bool.and_true, Bool.false_eq_true, if_false, if_true,
        List.append_nil]

theorem signChars_eq_standard (c : BitVec 8) (flags : Flags) (arg : Arg) :
    signChars (integerValue c flags arg < 0) (integerFlags c flags) =
      standardSign c flags (integerValue c flags arg) := by
  obtain ⟨_, _, _, _, hplus, hspace⟩ := integerFlags_eq c flags
  rw [signChars, standardSign, hplus, hspace]
  cases hs : isSigned c with
  | true =>
    simp only [Bool.true_eq_false, if_false, Bool.true_and, decide_eq_true_eq]
  | false =>
    have hpos : ¬ integerValue c flags arg < 0 := by
      rw [integerValue, hs, if_neg Bool.false_ne_true]
      omega
    simp only [hpos, decide_false, Bool.false_and, Bool.false_eq_true, if_false, if_true]

theorem standardNumber_zero (sign : List (BitVec 8)) (hp : 0 < prec) (width : Nat) (zero : Bool) :
    standardNumber sign [ch '0'] prec width zero = standardNumber sign [] prec width zero := by
  obtain ⟨n, rfl⟩ : ∃ n, prec = n + 1 := ⟨prec - 1, by omega⟩
  have hbody : List.replicate (n + 1 - [ch '0'].length) (ch '0') ++ [ch '0'] =
      List.replicate (n + 1 - ([] : List (BitVec 8)).length) (ch '0') ++ [] := by
    rw [List.append_nil, List.length_nil, Nat.sub_zero, List.replicate_succ']
    rfl
  rw [standardNumber, standardNumber, hbody]

theorem length_standardDigits (uppercase : Bool) (hn : n ≠ 0) (base : Nat) :
    (standardDigits uppercase base n).length = (Nat.digits base n).length := by
  rw [standardDigits, if_neg hn, List.length_reverse, List.length_map]

theorem standardInteger_fits {c : BitVec 8} (hb : 1 < specifierBase c)
    (hfits : (standardInteger c p arg).length ≤ ntoaBufferSize) :
    (integerValue c p.flags arg).natAbs < specifierBase c ^ ntoaBufferSize := by
  by_cases hzero : integerValue c p.flags arg = 0
  · rw [hzero]
    exact Nat.pow_pos (by omega)
  · have hnot : ¬ (integerValue c p.flags arg = 0 ∧ p.flags.precision = true ∧ p.precision = 0) :=
      fun h => hzero h.1
    have hn : (integerValue c p.flags arg).natAbs ≠ 0 := mt Int.natAbs_eq_zero.1 hzero
    rw [standardInteger, if_neg hnot, length_standardNumber, length_standardDigits _ hn] at hfits
    exact (Nat.digits_length_le_iff hb _).1 (by omega)

theorem standardInteger_eq {c : BitVec 8} (hb : 1 < specifierBase c)
    (hupper : p.flags.uppercase = false)
    (hv : (integerValue c p.flags arg).natAbs < specifierBase c ^ ntoaBufferSize) :
    standardInteger c p arg =
      standardNumber (signChars (integerValue c p.flags arg < 0) (integerFlags c p.flags))
        (valueDigits (integerFlags c p.flags) (specifierBase c)
          (integerValue c p.flags arg).natAbs).reverse p.precision p.width
        ((integerFlags c p.flags).zeropad && !(integerFlags c p.flags).left) := by
  obtain ⟨hl, hz, hu, hpr, _⟩ := integerFlags_eq c p.flags
  rw [standardInteger, valueDigits_reverse hb hv, signChars_eq_standard, hl, hz, hu, hpr, hupper,
    Bool.false_or]
  by_cases hzero : integerValue c p.flags arg = 0
  · rw [hzero, Int.natAbs_zero]
    by_cases hprec : p.flags.precision = true
    · by_cases h0 : p.precision = 0
      · simp only [hprec, h0, and_self, if_true]
      · simp only [hprec, h0, and_self, and_false, if_true, if_false]
        exact standardNumber_zero _ (Nat.pos_of_ne_zero h0) _ _
    · have hno : ¬ ((0 : Int) = 0 ∧ p.flags.precision = true ∧ p.precision = 0) :=
        fun h => hprec h.2.1
      have hno' : ¬ ((0 : Nat) = 0 ∧ p.flags.precision = true) := fun h => hprec h.2
      rw [if_neg hno, if_neg hno']
  · have hn : (integerValue c p.flags arg).natAbs ≠ 0 := mt Int.natAbs_eq_zero.1 hzero
    rw [if_neg (fun h => hzero h.1), if_neg (fun h => hn h.1)]

/-- Where the standard's characters fit the buffer, and the flag `-` does not stand beside a
precision that asks for zeros, they are the text. -/
theorem integerText_standard {h : Header} {c : BitVec 8} (hp : h.parse va = .ok p)
    (hhash : p.flags.hash = false ∨ specifierBase c = 10)
    (hfits : (standardInteger c p arg).length ≤ ntoaBufferSize)
    (hleft : p.flags.left = true → p.precision = 0 ∨ (integerValue c p.flags arg ≠ 0 ∧
      p.precision ≤
        (Nat.digits (specifierBase c) (integerValue c p.flags arg).natAbs).length)) :
    integerText c p arg = standardField (standardInteger c p arg) p.width p.flags.left := by
  obtain ⟨hupper, _⟩ := Header.parse_fresh hp
  obtain ⟨hl, _, _, hpr, _⟩ := integerFlags_eq c p.flags
  have hb : 1 < specifierBase c := by
    obtain hb | hb | hb | hb := specifierBase_cases c <;> rw [hb] <;> decide
  have hv := standardInteger_fits hb hfits
  have heq := standardInteger_eq hb hupper hv
  have hlen : (integerFlags c p.flags).left = true → p.precision ≤
      (valueDigits (integerFlags c p.flags) (specifierBase c)
        (integerValue c p.flags arg).natAbs).length := by
    intro hleft'
    obtain h0 | ⟨hne, hle⟩ := hleft (hl ▸ hleft')
    · rw [h0]
      exact Nat.zero_le _
    · have hn : (integerValue c p.flags arg).natAbs ≠ 0 := mt Int.natAbs_eq_zero.1 hne
      rw [← List.length_reverse, valueDigits_reverse hb hv, if_neg (fun h => hn h.1),
        length_standardDigits _ hn]
      exact hle
  rw [heq] at hfits ⊢
  rw [integerText_eq, longText_eq (hash_integerFlags hhash),
    formatText_standard (hash_integerFlags hhash) hlen hfits, hl]

/-- An integer without `#` is printed as the C standard says where its characters fit the buffer,
unless the flag `-` stands beside a precision that asks for zeros. -/
theorem putInteger_standard {h : Header} {c : BitVec 8} (hp : h.parse va = .ok p)
    (hhash : p.flags.hash = false ∨ specifierBase c = 10)
    (hfits : (standardInteger c p arg).length ≤ ntoaBufferSize)
    (hleft : p.flags.left = true → p.precision = 0 ∨ (integerValue c p.flags arg ≠ 0 ∧
      p.precision ≤
        (Nat.digits (specifierBase c) (integerValue c p.flags arg).natAbs).length)) :
    PutsOut (fun _ out maxlen s => putInteger out maxlen s c p arg)
      (standardField (standardInteger c p arg) p.width p.flags.left) := by
  intro β out maxlen s
  rw [← integerText_standard hp hhash hfits hleft]
  exact putInteger_eq c p arg

theorem putInteger_standard_plain :
    PutsOut (fun _ out maxlen s => putInteger out maxlen s (ch 'd') ⟨.none, 0, 0, [], []⟩
        (.ofInt 2024))
      (standardField (standardInteger (ch 'd') ⟨.none, 0, 0, [], []⟩ (.ofInt 2024)) 0 false) :=
  putInteger_standard (h := ⟨[], .absent, none, .none⟩) rfl (.inr rfl) (by decide) nofun

end AdaOS.Printf
