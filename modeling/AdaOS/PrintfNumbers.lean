import AdaOS.Positional
import AdaOS.PrintfText

namespace AdaOS.Printf
set_option autoImplicit true

/-- The digit that a character stands for, up to base 16. -/
def digitValue (c : BitVec 8) : Option Nat :=
  if ch '0' ≤ c ∧ c ≤ ch '9' then some (c.toNat - 48)
  else if ch 'a' ≤ c ∧ c ≤ ch 'f' then some (c.toNat - 87)
  else if ch 'A' ≤ c ∧ c ≤ ch 'F' then some (c.toNat - 55)
  else none

/-- The number that the digits of a text stand for. -/
def readNumber (base : Nat) (t : List (BitVec 8)) : Nat :=
  Positional.value base (t.filterMap digitValue)

def readSigned (t : List (BitVec 8)) : Int :=
  if t.contains (ch '-') then -(readNumber 10 t : Int) else readNumber 10 t

/-- The digits of a number, the last one first, of which at most `n` are taken. -/
def lowDigits (base : Nat) : Nat → Nat → List Nat
  | 0, _ => []
  | n + 1, value =>
    value % base :: if value / base = 0 then [] else lowDigits base n (value / base)

theorem ntoaDigits_eq (uppercase : Bool) (base n value : Nat) :
    ntoaDigits uppercase base n value = (lowDigits base n value).map (digitChar uppercase) := by
  induction n generalizing value with
  | zero => rfl
  | succ n ih =>
    rw [ntoaDigits, lowDigits, List.map_cons, ih]
    split <;> rfl

theorem lowDigits_lt (hb : 0 < base) (n value : Nat) : ∀ d ∈ lowDigits base n value, d < base := by
  induction n generalizing value with
  | zero => exact List.forall_mem_nil _
  | succ n ih =>
    rw [lowDigits]
    refine List.forall_mem_cons.2 ⟨Nat.mod_lt value hb, ?_⟩
    split
    · exact List.forall_mem_nil _
    · exact ih _

theorem ofDigits_lowDigits (base n value : Nat) :
    Nat.ofDigits base (lowDigits base n value) = value % base ^ n := by
  induction n generalizing value with
  | zero =>
    rw [Nat.pow_zero, Nat.mod_one]
    rfl
  | succ n ih =>
    rw [lowDigits, Nat.ofDigits_cons, Nat.pow_succ', Nat.mod_mul]
    split
    · rename_i hzero
      rw [hzero, Nat.zero_mod]
      rfl
    · rw [ih]

theorem length_lowDigits_le (base n value : Nat) : (lowDigits base n value).length ≤ n := by
  induction n generalizing value with
  | zero => exact Nat.le_refl 0
  | succ n ih =>
    rw [lowDigits, List.length_cons]
    split
    · exact Nat.succ_le_succ (Nat.zero_le n)
    · exact Nat.succ_le_succ (ih _)

theorem length_lowDigits_lt (hv : value < base ^ (k + 1)) (n : Nat) :
    (lowDigits base n value).length ≤ k + 1 := by
  induction n generalizing value k with
  | zero => exact Nat.zero_le _
  | succ n ih =>
    rw [lowDigits, List.length_cons]
    split
    · exact Nat.succ_le_succ (Nat.zero_le _)
    · rename_i hzero
      cases k with
      | zero =>
        rw [Nat.zero_add, Nat.pow_one] at hv
        exact absurd (Nat.div_eq_of_lt hv) hzero
      | succ k =>
        have hdiv : value / base < base ^ (k + 1) := by
          rw [Nat.pow_succ'] at hv
          exact Nat.div_lt_of_lt_mul hv
        exact Nat.succ_le_succ (ih hdiv)

theorem digitValue_digitChar (uppercase : Bool) (hd : d < 16) :
    digitValue (digitChar uppercase d) = some d := by
  have hall : ∀ u : Bool, ∀ d < 16, digitValue (digitChar u d) = some d := by decide
  exact hall uppercase d hd

theorem filterMap_digits (uppercase : Bool) {ds : List Nat} (hds : ∀ d ∈ ds, d < 16) :
    (ds.map (digitChar uppercase)).filterMap digitValue = ds := by
  induction ds with
  | nil => rfl
  | cons d ds ih =>
    obtain ⟨hd, hds⟩ := List.forall_mem_cons.1 hds
    rw [List.map_cons, List.filterMap_cons_some (digitValue_digitChar uppercase hd), ih hds]

def signChars (negative : Bool) (flags : Flags) : List (BitVec 8) :=
  if negative then [ch '-'] else if flags.plus then [ch '+']
  else if flags.space then [ch ' '] else []

/-- How many zeros stand before `len` digits. -/
def zeroCount (negative : Bool) (prec width : Nat) (flags : Flags) (len : Nat) : Nat :=
  if flags.left then 0
  else if flags.zeropad then min (max prec (padWidth negative width flags)) ntoaBufferSize - len
  else min prec ntoaBufferSize - len

/-- A full buffer leaves no room for the sign. -/
def numberSign (negative : Bool) (prec width : Nat) (flags : Flags) (len : Nat) :
    List (BitVec 8) :=
  if len + zeroCount negative prec width flags len < ntoaBufferSize then signChars negative flags
  else []

/-- How many spaces there are, on one side or the other. -/
def spaceCount (negative : Bool) (prec width : Nat) (flags : Flags) (len : Nat) : Nat :=
  padWidth negative width flags - (len + zeroCount negative prec width flags len +
    (numberSign negative prec width flags len).length)

theorem padZeros_eq (negative : Bool) (prec width : Nat) (flags : Flags) (buf : List (BitVec 8)) :
    padZeros prec (padWidth negative width flags) flags buf =
      buf ++ List.replicate (zeroCount negative prec width flags buf.length) (ch '0') := by
  rw [padZeros, zeroCount]
  split
  · exact (List.append_nil buf).symm
  · split
    · rw [zerosTo, zerosTo, List.append_assoc, List.replicate_append_replicate, List.length_append,
        List.length_replicate]
      congr 2
      omega
    · rw [zerosTo]

theorem signPrefix_eq (negative : Bool) (flags : Flags) (buf : List (BitVec 8)) :
    signPrefix negative flags buf =
      buf ++ if buf.length < ntoaBufferSize then signChars negative flags else [] := by
  rw [signPrefix, signChars]
  simp only [push]
  split_ifs <;> simp only [List.append_nil]

/-- A number without a prefix: spaces, the sign, zeros, the digits, spaces. -/
theorem formatText_eq (hhash : flags.hash = false) (buf : List (BitVec 8)) (negative : Bool)
    (base prec width : Nat) :
    formatText buf negative base prec width flags =
      padding (!flags.left && !flags.zeropad) (spaceCount negative prec width flags buf.length) ++
        (numberSign negative prec width flags buf.length ++
          (List.replicate (zeroCount negative prec width flags buf.length) (ch '0') ++
            (buf.reverse ++
              padding flags.left (spaceCount negative prec width flags buf.length)))) := by
  have hsign : (signChars negative flags).reverse = signChars negative flags := by
    rw [signChars]
    split_ifs <;> rfl
  have hsign' : (numberSign negative prec width flags buf.length).reverse =
      numberSign negative prec width flags buf.length := by
    rw [numberSign]
    split
    · exact hsign
    · rfl
  have hbuf : signPrefix negative flags (padZeros prec (padWidth negative width flags) flags buf) =
      buf ++ (List.replicate (zeroCount negative prec width flags buf.length) (ch '0') ++
        numberSign negative prec width flags buf.length) := by
    rw [signPrefix_eq, padZeros_eq, List.length_append, List.length_replicate, List.append_assoc]
    rfl
  have hlen : (buf ++ (List.replicate (zeroCount negative prec width flags buf.length) (ch '0') ++
      numberSign negative prec width flags buf.length)).length =
        buf.length + zeroCount negative prec width flags buf.length +
          (numberSign negative prec width flags buf.length).length := by
    rw [List.length_append, List.length_append, List.length_replicate, Nat.add_assoc]
  have hnot : ¬ flags.hash = true := by rw [hhash]; exact Bool.false_ne_true
  rw [formatText, if_neg hnot, hbuf, revText, hlen, ← spaceCount, List.reverse_append,
    List.reverse_append, List.reverse_replicate, hsign']
  simp only [List.append_assoc]

theorem filterMap_nil_of_none {t : List (BitVec 8)} (h : ∀ c ∈ t, digitValue c = none) :
    t.filterMap digitValue = [] := List.filterMap_eq_nil_iff.2 h

theorem filterMap_padding (pad : Bool) (n : Nat) : (padding pad n).filterMap digitValue = [] := by
  apply filterMap_nil_of_none
  intro c hc
  rw [padding] at hc
  split at hc
  · obtain rfl := List.eq_of_mem_replicate hc
    decide
  · cases hc

theorem filterMap_signChars (negative : Bool) (flags : Flags) :
    (signChars negative flags).filterMap digitValue = [] := by
  rw [signChars]
  split_ifs <;> rfl

theorem filterMap_numberSign (negative : Bool) (prec width : Nat) (flags : Flags) (len : Nat) :
    (numberSign negative prec width flags len).filterMap digitValue = [] := by
  rw [numberSign]
  split
  · exact filterMap_signChars negative flags
  · rfl

theorem filterMap_zeros (n : Nat) :
    (List.replicate n (ch '0')).filterMap digitValue = List.replicate n 0 := by
  have hzero : digitValue (ch '0') = some 0 := by decide
  rw [List.filterMap_replicate_of_some hzero]

theorem readNumber_formatText (hhash : flags.hash = false) (uppercase : Bool) {ds : List Nat}
    (hds : ∀ d ∈ ds, d < 16) (base : Nat) (negative : Bool) (b prec width : Nat) :
    readNumber base (formatText (ds.map (digitChar uppercase)) negative b prec width flags) =
      Nat.ofDigits base ds := by
  rw [readNumber, formatText_eq hhash]
  simp only [List.filterMap_append, filterMap_padding, filterMap_numberSign, filterMap_zeros,
    ← List.map_reverse]
  rw [filterMap_digits uppercase fun d hd => hds d (List.mem_reverse.1 hd), List.nil_append,
    List.nil_append, List.append_nil, Positional.value_eq_ofDigits, List.reverse_append,
    List.reverse_reverse, List.reverse_replicate, Nat.ofDigits_append_replicate_zero]

theorem digitChar_ne_minus (uppercase : Bool) (hd : d < 16) : digitChar uppercase d ≠ ch '-' := by
  have hall : ∀ u : Bool, ∀ d < 16, digitChar u d ≠ ch '-' := by decide
  exact hall uppercase d hd

theorem minus_mem_formatText (hhash : flags.hash = false) (uppercase : Bool) {ds : List Nat}
    (hds : ∀ d ∈ ds, d < 16) (negative : Bool) (base prec width : Nat) :
    ch '-' ∈ formatText (ds.map (digitChar uppercase)) negative base prec width flags ↔
      negative = true ∧
        ds.length + zeroCount negative prec width flags ds.length < ntoaBufferSize := by
  have hpad : ∀ pad n, ch '-' ∉ padding pad n := by
    intro pad n hmem
    rw [padding] at hmem
    split at hmem
    · exact absurd (List.eq_of_mem_replicate hmem) (by decide)
    · cases hmem
  have hzeros : ∀ n, ch '-' ∉ List.replicate n (ch '0') := by
    intro n hmem
    exact absurd (List.eq_of_mem_replicate hmem) (by decide)
  have hdigits : ch '-' ∉ (ds.map (digitChar uppercase)).reverse := by
    intro hmem
    obtain ⟨d, hd, heq⟩ := List.mem_map.1 (List.mem_reverse.1 hmem)
    exact digitChar_ne_minus uppercase (hds d hd) heq
  have hsign : ch '-' ∈ signChars negative flags ↔ negative = true := by
    rw [signChars]
    cases negative with
    | true => exact ⟨fun _ => rfl, fun _ => List.mem_singleton_self _⟩
    | false =>
      rw [if_neg Bool.false_ne_true]
      split_ifs <;> decide
  rw [formatText_eq hhash]
  simp only [List.mem_append, hpad, hzeros, hdigits, false_or, or_false, List.length_map]
  rw [numberSign]
  split
  · rename_i hlt
    rw [hsign]
    exact (and_iff_left hlt).symm
  · rename_i hlt
    exact ⟨fun hmem => absurd hmem List.not_mem_nil, fun h => absurd h.2 hlt⟩

theorem valueDigits_eq (flags : Flags) (base value : Nat) :
    ∃ ds : List Nat, valueDigits flags base value = ds.map (digitChar flags.uppercase) ∧
      Nat.ofDigits base ds = value % base ^ ntoaBufferSize ∧
      (0 < base → ∀ d ∈ ds, d < base) ∧ (ds = lowDigits base ntoaBufferSize value ∨ ds = []) := by
  rw [valueDigits]
  split
  · exact ⟨lowDigits base ntoaBufferSize value, ntoaDigits_eq _ _ _ _, ofDigits_lowDigits _ _ _,
      fun hb => lowDigits_lt hb _ _, .inl rfl⟩
  · rename_i hnone
    obtain ⟨_, hzero⟩ := not_or.1 hnone
    rw [not_not] at hzero
    refine ⟨[], rfl, ?_, fun _ => List.forall_mem_nil _, .inr rfl⟩
    rw [hzero, Nat.zero_mod]
    rfl

section Long
variable {flags : Flags} (hhash : flags.hash = false) (value : Nat) (negative : Bool)
  (base prec width : Nat)
include hhash

theorem longText_eq : longText value negative base prec width flags =
    formatText (valueDigits flags base value) negative base prec width flags := by
  have hsame : (if value = 0 then { flags with hash := false } else flags) = flags := by
    split
    · rw [← hhash]
    · rfl
  rw [longText, hsame]

theorem readNumber_longText (hb : 0 < base) (hb' : base ≤ 16) :
    readNumber base (longText value negative base prec width flags) =
      value % base ^ ntoaBufferSize := by
  obtain ⟨ds, hds, hvalue, hlt, _⟩ := valueDigits_eq flags base value
  have hlt16 : ∀ d ∈ ds, d < 16 := fun d hd => Nat.lt_of_lt_of_le (hlt hb d hd) hb'
  rw [longText_eq hhash, hds, readNumber_formatText hhash _ hlt16, hvalue]

theorem minus_mem_longText (hb : 0 < base) (hb' : base ≤ 16) (hv : value < base ^ (k + 1)) :
    ∃ len ≤ k + 1, ch '-' ∈ longText value negative base prec width flags ↔
      negative = true ∧ len + zeroCount negative prec width flags len < ntoaBufferSize := by
  obtain ⟨ds, hds, _, hlt, hlow⟩ := valueDigits_eq flags base value
  have hlt16 : ∀ d ∈ ds, d < 16 := fun d hd => Nat.lt_of_lt_of_le (hlt hb d hd) hb'
  have hlen : ds.length ≤ k + 1 := by
    obtain rfl | rfl := hlow
    · exact length_lowDigits_lt hv _
    · exact Nat.zero_le _
  refine ⟨ds.length, hlen, ?_⟩
  rw [longText_eq hhash, hds]
  exact minus_mem_formatText hhash _ hlt16 _ _ _ _

end Long

/-- The number that an integer specifier makes of its argument. -/
def integerValue (c : BitVec 8) (flags : Flags) (arg : Arg) : Int :=
  if isSigned c then (signedArg flags arg).toInt else (unsignedArg flags arg).toNat

theorem toNat_magnitude (v : BitVec 64) :
    (if 0 < v.toInt then v else 0 - v).toNat = v.toInt.natAbs := by
  rw [BitVec.toInt_eq_toNat_cond]
  have hlt := v.isLt
  split_ifs with hhalf hpos
  · omega
  · have hzero : v.toNat = 0 := by omega
    rw [BitVec.toNat_sub, hzero]
    rfl
  · omega
  · rw [BitVec.toNat_sub]
    change (2 ^ 64 - v.toNat + 0) % 2 ^ 64 = _
    omega

theorem integerFlags_arg (c : BitVec 8) (flags : Flags) (arg : Arg) :
    signedArg (integerFlags c flags) arg = signedArg flags arg ∧
      unsignedArg (integerFlags c flags) arg = unsignedArg flags arg := by
  rw [integerFlags]
  split_ifs <;> exact ⟨rfl, rfl⟩

theorem integerFlags_eq (c : BitVec 8) (flags : Flags) :
    (integerFlags c flags).left = flags.left ∧
      (integerFlags c flags).zeropad = (flags.zeropad && !flags.precision) ∧
      (integerFlags c flags).uppercase = (flags.uppercase || decide (c = ch 'X')) ∧
      (integerFlags c flags).precision = flags.precision ∧
      (integerFlags c flags).plus = (isSigned c && flags.plus) ∧
      (integerFlags c flags).space = (isSigned c && flags.space) := by
  rw [integerFlags]
  split_ifs <;> simp_all

theorem integerText_eq (c : BitVec 8) (p : Parse) (arg : Arg) :
    integerText c p arg =
      longText (integerValue c p.flags arg).natAbs (integerValue c p.flags arg < 0)
        (specifierBase c) p.precision p.width (integerFlags c p.flags) := by
  obtain ⟨hsigned, hunsigned⟩ := integerFlags_arg c p.flags arg
  rw [integerText, integerValue]
  dsimp only
  rw [hsigned, hunsigned]
  split
  · rw [toNat_magnitude]
  · have hpos : ¬ ((unsignedArg p.flags arg).toNat : Int) < 0 := by omega
    rw [Int.natAbs_natCast, decide_eq_false hpos]

theorem specifierBase_cases (c : BitVec 8) :
    specifierBase c = 16 ∨ specifierBase c = 8 ∨ specifierBase c = 2 ∨ specifierBase c = 10 := by
  rw [specifierBase]
  split_ifs
  · exact .inl rfl
  · exact .inr (.inl rfl)
  · exact .inr (.inr (.inl rfl))
  · exact .inr (.inr (.inr rfl))

theorem hash_integerFlags {c : BitVec 8} {flags : Flags}
    (h : flags.hash = false ∨ specifierBase c = 10) : (integerFlags c flags).hash = false := by
  rw [integerFlags]
  split_ifs
  all_goals first
    | rfl
    | exact h.resolve_right ‹_›

theorem natAbs_integerValue_lt (c : BitVec 8) (flags : Flags) (arg : Arg) :
    (integerValue c flags arg).natAbs < 2 ^ 64 := by
  rw [integerValue]
  split
  · rw [BitVec.toInt_eq_toNat_cond]
    have hlt := (signedArg flags arg).isLt
    split <;> omega
  · rw [Int.natAbs_natCast]
    exact (unsignedArg flags arg).isLt

/-- A sink-independent text for a call that puts out characters. -/
def PutsOut (f : ∀ β : Type, OutFct β → Nat → Cursor β → Except Fault (Cursor β))
    (t : List (BitVec 8)) : Prop :=
  ∀ (β : Type) (out : OutFct β) (maxlen : Nat) (s : Cursor β),
    f β out maxlen s = t.foldlM (put out maxlen) s

/-- An integer reads back from what is printed, whatever the flags (without `#`), the width, the
precision and the length field are; of a binary number the low 32 digits. -/
theorem putInteger_reads {c : BitVec 8} {p : Parse}
    (hhash : p.flags.hash = false ∨ specifierBase c = 10) (arg : Arg) :
    ∃ t, PutsOut (fun _ out maxlen s => putInteger out maxlen s c p arg) t ∧
      readNumber (specifierBase c) t =
        if c = ch 'b' then (integerValue c p.flags arg).natAbs % 2 ^ 32
        else (integerValue c p.flags arg).natAbs := by
  refine ⟨integerText c p arg, fun β out maxlen s => putInteger_eq c p arg, ?_⟩
  have hlt := natAbs_integerValue_lt c p.flags arg
  have hpos : 0 < specifierBase c ∧ specifierBase c ≤ 16 := by
    obtain h | h | h | h := specifierBase_cases c <;> rw [h] <;> decide
  rw [integerText_eq, readNumber_longText (hash_integerFlags hhash) _ _ _ _ _ hpos.1 hpos.2]
  split
  · rename_i hb
    subst hb
    rfl
  · rename_i hb
    have hbig : 2 ^ 64 ≤ specifierBase c ^ ntoaBufferSize := by
      have hne : specifierBase c ≠ 2 := by
        rw [specifierBase]
        split_ifs <;> first | exact hb | decide
      obtain h | h | h | h := specifierBase_cases c
      · rw [h]; decide
      · rw [h]; decide
      · exact absurd h hne
      · rw [h]; decide
    exact Nat.mod_eq_of_lt (Nat.lt_of_lt_of_le hlt hbig)

theorem putInteger_reads_hexadecimal :
    ∃ t, PutsOut (fun _ out maxlen s => putInteger out maxlen s (ch 'x')
        ⟨.none, 0, 0, [], []⟩ (.ofInt 2024)) t ∧
      readNumber 16 t = 2024 :=
  putInteger_reads (c := ch 'x') (.inl rfl) _

/-- Zeros leave no room for the sign of a number. -/
def ZerosFill (p : Parse) : Prop :=
  p.flags.left = false ∧
    (ntoaBufferSize ≤ p.precision ∨
      (p.flags.zeropad = true ∧ p.flags.precision = false ∧ ntoaBufferSize < p.width))

theorem zeroCount_lt_iff (c : BitVec 8) (p : Parse) (hlen : len < ntoaBufferSize) :
    len + zeroCount true p.precision p.width (integerFlags c p.flags) len < ntoaBufferSize ↔
      ¬ ZerosFill p := by
  obtain ⟨hleft, hzero, _⟩ := integerFlags_eq c p.flags
  rw [zeroCount, padWidth, hleft, hzero, ZerosFill]
  rw [ntoaBufferSize] at *
  cases p.flags.left with
  | true => simpa using hlen
  | false =>
    cases hpad : p.flags.zeropad && !p.flags.precision with
    | true =>
      obtain ⟨hz, hp⟩ := (Bool.and_eq_true _ _).mp hpad
      have hp : p.flags.precision = false := by simpa using hp
      simp only [hz, hp, Bool.false_eq_true, if_false, if_true, Bool.not_false, true_and,
        Bool.true_or, and_true, not_or, Nat.not_le]
      split <;> omega
    | false =>
      have hnot : ¬ (p.flags.zeropad = true ∧ p.flags.precision = false ∧ 32 < p.width) := by
        rintro ⟨hz, hp, _⟩
        rw [hz, hp] at hpad
        cases hpad
      simp only [hnot, Bool.false_eq_true, if_false, or_false, true_and, Nat.not_le]
      omega

/-- A signed number reads back with its sign, unless it is negative and zeros fill the buffer. -/
theorem putSigned_reads_iff {c : BitVec 8} (hc : isSigned c = true) (p : Parse) (arg : Arg) :
    ∃ t, PutsOut (fun _ out maxlen s => putInteger out maxlen s c p arg) t ∧
      (readSigned t = (signedArg p.flags arg).toInt ↔
        0 ≤ (signedArg p.flags arg).toInt ∨ ¬ ZerosFill p) := by
  have hbase : specifierBase c = 10 := by
    rw [isSigned, Bool.or_eq_true, decide_eq_true_eq, decide_eq_true_eq] at hc
    obtain rfl | rfl := hc <;> rfl
  have hvalue : integerValue c p.flags arg = (signedArg p.flags arg).toInt := by
    rw [integerValue, if_pos hc]
  have hhash : (integerFlags c p.flags).hash = false := hash_integerFlags (.inr hbase)
  have hlt : (integerValue c p.flags arg).natAbs < 10 ^ (19 + 1) :=
    Nat.lt_trans (natAbs_integerValue_lt c p.flags arg) (by decide)
  have hfits : (integerValue c p.flags arg).natAbs < 10 ^ ntoaBufferSize :=
    Nat.lt_trans (natAbs_integerValue_lt c p.flags arg) (by decide)
  refine ⟨integerText c p arg, fun β out maxlen s => putInteger_eq c p arg, ?_⟩
  have hread := readNumber_longText hhash (integerValue c p.flags arg).natAbs
    (integerValue c p.flags arg < 0) 10 p.precision p.width (by decide) (by decide)
  obtain ⟨len, hlen, hminus⟩ := minus_mem_longText hhash (integerValue c p.flags arg).natAbs
    (integerValue c p.flags arg < 0) 10 p.precision p.width (by decide) (by decide) hlt
  rw [Nat.mod_eq_of_lt hfits] at hread
  rw [integerText_eq, hbase, readSigned, hread, ← hvalue]
  simp only [List.contains_iff_mem]
  have hroom : len < ntoaBufferSize := Nat.lt_of_le_of_lt hlen (by decide)
  by_cases hneg : integerValue c p.flags arg < 0
  · rw [decide_eq_true hneg] at hminus ⊢
    rw [zeroCount_lt_iff c p hroom, eq_self, true_and] at hminus
    by_cases hfill : ZerosFill p
    · rw [if_neg (mt hminus.1 (not_not.2 hfill))]
      constructor
      · intro h
        omega
      · rintro (h | h)
        · omega
        · exact absurd hfill h
    · rw [if_pos (hminus.2 hfill)]
      exact ⟨fun _ => .inr hfill, fun _ => by omega⟩
  · rw [decide_eq_false hneg] at hminus ⊢
    have hno := mt hminus.1 (fun h => Bool.false_ne_true h.1)
    rw [if_neg hno]
    exact ⟨fun _ => .inl (by omega), fun _ => by omega⟩

/-- In a field of 33 characters zeros take the place of the sign. -/
theorem putSigned_reads_iff_wide :
    ∃ t, PutsOut (fun _ out maxlen s => putInteger out maxlen s (ch 'd')
        ⟨{ Flags.none with zeropad := true }, 33, 0, [], []⟩ (.ofInt 0xfffffffb)) t ∧
      (readSigned t = -5 ↔ 0 ≤ (-5 : Int) ∨
        ¬ ZerosFill ⟨{ Flags.none with zeropad := true }, 33, 0, [], []⟩) :=
  putSigned_reads_iff (c := ch 'd') rfl _ _

end AdaOS.Printf
