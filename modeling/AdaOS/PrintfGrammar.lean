import AdaOS.PrintfText

namespace AdaOS.Printf
set_option autoImplicit true

open Traced

inductive FlagChar where
  | zero
  | minus
  | plus
  | space
  | hash
  deriving DecidableEq

def FlagChar.char : FlagChar → BitVec 8
  | zero => ch '0'
  | minus => ch '-'
  | plus => ch '+'
  | space => ch ' '
  | hash => ch '#'

def Flags.set (flags : Flags) : FlagChar → Flags
  | .zero => { flags with zeropad := true }
  | .minus => { flags with left := true }
  | .plus => { flags with plus := true }
  | .space => { flags with space := true }
  | .hash => { flags with hash := true }

/-- A width, or what comes after the `.` of a precision. -/
inductive Count where
  | absent
  | digits (ds : List (BitVec 8))
  | star
  deriving DecidableEq

def Count.chars : Count → List (BitVec 8)
  | absent => []
  | digits ds => ds
  | star => [ch '*']

inductive Length where
  | none
  | l
  | ll
  | h
  | hh
  | j
  | z
  deriving DecidableEq

def Length.chars : Length → List (BitVec 8)
  | none => []
  | l => [ch 'l']
  | ll => [ch 'l', ch 'l']
  | h => [ch 'h']
  | hh => [ch 'h', ch 'h']
  | j => [ch 'j']
  | z => [ch 'z']

def Flags.setLength (flags : Flags) : Length → Flags
  | .none => flags
  | .l | .j | .z => { flags with long := true }
  | .ll => { flags with long := true, longLong := true }
  | .h => { flags with short := true }
  | .hh => { flags with short := true, char := true }

/-- What stands between `%` and the specifier. -/
structure Header where
  flags : List FlagChar
  width : Count
  precision : Option Count
  length : Length
  deriving DecidableEq

def precisionChars : Option Count → List (BitVec 8)
  | none => []
  | some c => ch '.' :: c.chars

def Header.chars (h : Header) : List (BitVec 8) :=
  h.flags.map FlagChar.char ++ (h.width.chars ++ (precisionChars h.precision ++ h.length.chars))

def Count.Wf : Count → Prop
  | digits ds => ds ≠ [] ∧ ∀ d ∈ ds, isDigit d = true
  | _ => True

/-- The digits of a width begin after the flag `0`. -/
structure Header.Wf (h : Header) : Prop where
  width : h.width.Wf
  head : h.width.chars.head? ≠ some (ch '0')
  precision : ∀ c ∈ h.precision, c.Wf

/-- A character goes on with the number, the width or the precision that was being read. -/
def Count.Continues : Count → BitVec 8 → Prop
  | absent, c => isDigit c = true ∨ c = ch '*'
  | digits _, c => isDigit c = true
  | star, _ => False

def Header.widthContinues (h : Header) (c : BitVec 8) : Prop :=
  h.width.Continues c ∨ (h.width = .absent ∧ ∃ f : FlagChar, c = f.char)

def Header.precisionContinues (h : Header) (c : BitVec 8) : Prop :=
  match h.precision with
  | some p => p.Continues c
  | none => c = ch '.' ∨ h.widthContinues c

def Length.Continues : Length → BitVec 8 → Prop
  | none, c => c = ch 'l' ∨ c = ch 'h' ∨ c = ch 'j' ∨ c = ch 'z'
  | l, c => c = ch 'l'
  | h, c => c = ch 'h'
  | _, _ => False

/-- A character after the header would be read as a part of it. -/
def Header.Continues (h : Header) (c : BitVec 8) : Prop :=
  h.length.Continues c ∨ (h.length = .none ∧ h.precisionContinues c)

inductive Piece where
  | lit (c : BitVec 8)
  | directive (h : Header) (specifier : BitVec 8)
  deriving DecidableEq

def Piece.chars : Piece → List (BitVec 8)
  | lit c => [c]
  | directive h c => ch '%' :: (h.chars ++ [c])

/-- The header of a directive is as long as can be. -/
def Piece.Wf : Piece → Prop
  | lit c => c ≠ 0 ∧ c ≠ ch '%'
  | directive h c => c ≠ 0 ∧ h.Wf ∧ ¬ h.Continues c

instance : DecidablePred Count.Wf
  | .absent => isTrue trivial
  | .digits ds => inferInstanceAs (Decidable (ds ≠ [] ∧ ∀ d ∈ ds, isDigit d = true))
  | .star => isTrue trivial

instance (h : Header) : Decidable h.Wf :=
  decidable_of_iff (h.width.Wf ∧ h.width.chars.head? ≠ some (ch '0') ∧ ∀ c ∈ h.precision, c.Wf)
    ⟨fun ⟨hw, hh, hp⟩ => ⟨hw, hh, hp⟩, fun hw => ⟨hw.width, hw.head, hw.precision⟩⟩

instance (c : BitVec 8) : Decidable (∃ f : FlagChar, c = f.char) :=
  decidable_of_iff (∃ f ∈ [FlagChar.zero, .minus, .plus, .space, .hash], c = f.char)
    ⟨fun ⟨f, _, hf⟩ => ⟨f, hf⟩, fun ⟨f, hf⟩ => ⟨f, by cases f <;> decide, hf⟩⟩

instance (w : Count) (c : BitVec 8) : Decidable (w.Continues c) :=
  match w with
  | .absent => inferInstanceAs (Decidable (isDigit c = true ∨ c = ch '*'))
  | .digits _ => inferInstanceAs (Decidable (isDigit c = true))
  | .star => isFalse not_false

instance (h : Header) (c : BitVec 8) : Decidable (h.widthContinues c) :=
  inferInstanceAs (Decidable (h.width.Continues c ∨
    (h.width = .absent ∧ ∃ f : FlagChar, c = f.char)))

instance (h : Header) (c : BitVec 8) : Decidable (h.precisionContinues c) :=
  match h with
  | ⟨_, _, some p, _⟩ => inferInstanceAs (Decidable (p.Continues c))
  | ⟨f, w, none, len⟩ =>
    inferInstanceAs (Decidable (c = ch '.' ∨ (⟨f, w, none, len⟩ : Header).widthContinues c))

instance (len : Length) (c : BitVec 8) : Decidable (len.Continues c) :=
  match len with
  | .none => inferInstanceAs (Decidable (c = ch 'l' ∨ c = ch 'h' ∨ c = ch 'j' ∨ c = ch 'z'))
  | .l => inferInstanceAs (Decidable (c = ch 'l'))
  | .h => inferInstanceAs (Decidable (c = ch 'h'))
  | .ll | .hh | .j | .z => isFalse not_false

instance (h : Header) (c : BitVec 8) : Decidable (h.Continues c) :=
  inferInstanceAs (Decidable (h.length.Continues c ∨ (h.length = .none ∧ h.precisionContinues c)))

instance : DecidablePred Piece.Wf
  | .lit c => inferInstanceAs (Decidable (c ≠ 0 ∧ c ≠ ch '%'))
  | .directive h c => inferInstanceAs (Decidable (c ≠ 0 ∧ h.Wf ∧ ¬ h.Continues c))

def render (ps : List Piece) : List (BitVec 8) := ps.flatMap Piece.chars

/-- The number that digits stand for, in 32 bits. -/
def number (i : Nat) (ds : List (BitVec 8)) : Nat :=
  ds.foldl (fun i d => u32 (i * 10 + (d - ch '0').toNat)) i

def Count.setWidth (p : Parse) : Count → Except Fault Parse
  | absent => .ok p
  | digits ds => .ok { p with width := number 0 ds }
  | star => do
    let (arg, va) ← vaArg p.va
    if arg.int.toInt < 0 then
      .ok { p with flags := { p.flags with left := true }, width := (-arg.int).toNat, va }
    else .ok { p with width := arg.int.toNat, va }

def Count.setPrecision (p : Parse) : Count → Except Fault Parse
  | absent => .ok p
  | digits ds => .ok { p with precision := number 0 ds }
  | star => do
    let (arg, va) ← vaArg p.va
    .ok { p with precision := if 0 < arg.int.toInt then arg.int.toNat else 0, va }

def setPrecisionField (p : Parse) : Option Count → Except Fault Parse
  | none => .ok p
  | some c => c.setPrecision { p with flags := { p.flags with precision := true } }

/-- What a header comes to with its arguments. -/
def Header.parse (h : Header) (va : List Arg) : Except Fault Parse := do
  let p ← h.width.setWidth ⟨h.flags.foldl Flags.set .none, 0, 0, [], va⟩
  let p ← setPrecisionField p h.precision
  .ok { p with flags := p.flags.setLength h.length }

def Piece.text : Piece → List Arg → Text (List Arg)
  | lit c, va => do
    emits [c]
    pure va
  | directive h c, va => do
    let p ← call (h.parse va)
    specifierText c p

def texts (ps : List Piece) (va : List Arg) : Text (List Arg) :=
  ps.foldlM (fun va p => p.text va) va

section Parsing
variable {w : Count} {len : Length} {h : Header} {c d : BitVec 8} {rest format : List (BitVec 8)}

theorem FlagChar.char_ne {c : BitVec 8} (h : ∀ f ∈ [ch '0', ch '-', ch '+', ch ' ', ch '#'], c ≠ f)
    (f : FlagChar) : c ≠ f.char := by
  apply h
  cases f <;> decide

theorem ne_char_of_isDigit (hd : isDigit c = true) (h0 : c ≠ ch '0') (f : FlagChar) :
    c ≠ f.char := by
  apply FlagChar.char_ne
  rintro e he rfl
  have hfalse : ∀ e ∈ [ch '-', ch '+', ch ' ', ch '#'], isDigit e = false := by decide
  obtain rfl | he := List.mem_cons.1 he
  · exact h0 rfl
  · rw [hfalse _ he] at hd
    cases hd

theorem parseFlags_append (fs : List FlagChar) (hc : ∀ f : FlagChar, c ≠ f.char) (flags : Flags) :
    parseFlags flags (fs.map FlagChar.char ++ c :: rest) =
      .ok (fs.foldl Flags.set flags, c :: rest) := by
  induction fs generalizing flags with
  | nil =>
    have hzero : c ≠ ch '0' := hc .zero
    have hminus : c ≠ ch '-' := hc .minus
    have hplus : c ≠ ch '+' := hc .plus
    have hspace : c ≠ ch ' ' := hc .space
    have hhash : c ≠ ch '#' := hc .hash
    rw [List.map_nil, List.nil_append, parseFlags, if_neg hzero, if_neg hminus, if_neg hplus,
      if_neg hspace, if_neg hhash, List.foldl_nil]
  | cons f fs ih =>
    rw [List.foldl_cons, ← ih]
    cases f <;> rfl

theorem atoi_append (hds : ∀ d ∈ ds, isDigit d = true) (hc : isDigit c = false) (i : Nat) :
    atoi i (ds ++ c :: rest) = .ok (number i ds, c :: rest) := by
  induction ds generalizing i with
  | nil =>
    rw [List.nil_append, atoi, if_neg (Bool.eq_false_iff.1 hc)]
    rfl
  | cons d ds ih =>
    obtain ⟨hd, hds⟩ := List.forall_mem_cons.1 hds
    rw [List.cons_append, atoi, if_pos hd, ih hds]
    rfl

theorem parseWidth_append (hw : w.Wf) (hd : ¬ w.Continues d) (p : Parse) :
    parseWidth { p with format := w.chars ++ d :: rest } =
      (w.setWidth p).map fun q => { q with format := d :: rest } := by
  cases w with
  | absent =>
    obtain ⟨hdigit, hstar⟩ := not_or.1 hd
    change parseWidth { p with format := d :: rest } = _
    rw [parseWidth]
    dsimp only
    rw [if_neg hdigit, if_neg hstar]
    rfl
  | digits ds =>
    obtain ⟨hne, hds⟩ := hw
    obtain ⟨e, ds', rfl⟩ := List.exists_cons_of_ne_nil hne
    have he := hds e List.mem_cons_self
    change parseWidth { p with format := e :: (ds' ++ d :: rest) } = _
    rw [parseWidth]
    dsimp only
    rw [if_pos he, ← List.cons_append, atoi_append hds (Bool.eq_false_iff.2 hd)]
    rfl
  | star =>
    change parseWidth { p with format := ch '*' :: d :: rest } = _
    have hstar : ¬ isDigit (ch '*') = true := by decide
    rw [parseWidth, Count.setWidth]
    dsimp only
    rw [if_neg hstar, if_pos rfl]
    cases vaArg p.va with
    | error e => rfl
    | ok r =>
      change (if _ then _ else _) = Except.map _ (if _ then _ else _)
      split <;> rfl

theorem parsePrecisionValue_append (hw : w.Wf) (hd : ¬ w.Continues d) (p : Parse) :
    parsePrecisionValue { p with format := w.chars ++ d :: rest } =
      (w.setPrecision p).map fun q => { q with format := d :: rest } := by
  cases w with
  | absent =>
    obtain ⟨hdigit, hstar⟩ := not_or.1 hd
    change parsePrecisionValue { p with format := d :: rest } = _
    rw [parsePrecisionValue]
    dsimp only
    rw [if_neg hdigit, if_neg hstar]
    rfl
  | digits ds =>
    obtain ⟨hne, hds⟩ := hw
    obtain ⟨e, ds', rfl⟩ := List.exists_cons_of_ne_nil hne
    have he := hds e List.mem_cons_self
    change parsePrecisionValue { p with format := e :: (ds' ++ d :: rest) } = _
    rw [parsePrecisionValue]
    dsimp only
    rw [if_pos he, ← List.cons_append, atoi_append hds (Bool.eq_false_iff.2 hd)]
    rfl
  | star =>
    change parsePrecisionValue { p with format := ch '*' :: d :: rest } = _
    have hstar : ¬ isDigit (ch '*') = true := by decide
    rw [parsePrecisionValue, Count.setPrecision]
    dsimp only
    rw [if_neg hstar, if_pos rfl]
    cases vaArg p.va with
    | error e => rfl
    | ok r => rfl

theorem parseLength_append (hd : ¬ len.Continues d) (p : Parse) :
    parseLength { p with format := len.chars ++ d :: rest } =
      .ok { p with flags := p.flags.setLength len, format := d :: rest } := by
  cases len with
  | none =>
    obtain ⟨hl, hh, hj, hz⟩ : d ≠ ch 'l' ∧ d ≠ ch 'h' ∧ d ≠ ch 'j' ∧ d ≠ ch 'z' := by
      simpa only [Length.Continues, not_or] using hd
    change parseLength { p with format := d :: rest } = _
    rw [parseLength]
    dsimp only
    rw [if_neg hl, if_neg hh, if_neg (not_or.2 ⟨hj, hz⟩)]
    rfl
  | l =>
    change parseLength { p with format := ch 'l' :: d :: rest } = _
    have hl : ¬ d = ch 'l' := hd
    rw [parseLength]
    dsimp only
    rw [if_pos rfl, if_neg hl]
    rfl
  | h =>
    change parseLength { p with format := ch 'h' :: d :: rest } = _
    have hh : ¬ d = ch 'h' := hd
    have hne : ¬ ch 'h' = ch 'l' := by decide
    rw [parseLength]
    dsimp only
    rw [if_neg hne, if_pos rfl, if_neg hh]
    rfl
  | ll => rfl
  | hh => rfl
  | j => rfl
  | z => rfl

theorem parsePrecision_append {pr : Option Count} (hw : ∀ w, pr = some w → w.Wf)
    (hd : ∀ w, pr = some w → ¬ w.Continues d) (hnone : pr = none → d ≠ ch '.') (p : Parse) :
    parsePrecision { p with format := precisionChars pr ++ d :: rest } =
      (setPrecisionField p pr).map fun q => { q with format := d :: rest } := by
  cases pr with
  | none =>
    change parsePrecision { p with format := d :: rest } = _
    rw [parsePrecision]
    dsimp only
    rw [if_neg (hnone rfl)]
    rfl
  | some w =>
    change parsePrecision { p with format := ch '.' :: (w.chars ++ d :: rest) } = _
    rw [parsePrecision]
    dsimp only
    rw [if_pos rfl, setPrecisionField, ← parsePrecisionValue_append (hw w rfl) (hd w rfl)]

/-- The length field or the specifier does not go on with the precision. -/
theorem Header.exists_length_head (hc : ¬ h.Continues c) (rest : List (BitVec 8)) :
    ∃ d tail, h.length.chars ++ c :: rest = d :: tail ∧ ¬ h.precisionContinues d := by
  obtain ⟨hlen, hprec⟩ := not_or.1 hc
  have hletter : ∀ d ∈ [ch 'l', ch 'h', ch 'j', ch 'z'], ¬ h.precisionContinues d := by
    intro d hd
    have hdigit : ¬ isDigit d = true ∧ d ≠ ch '*' ∧ d ≠ ch '.' ∧
        ∀ f ∈ [ch '0', ch '-', ch '+', ch ' ', ch '#'], d ≠ f := by
      revert d
      decide
    obtain ⟨hdigit, hstar, hdot, hflag⟩ := hdigit
    have hcount : ∀ w : Count, ¬ w.Continues d := by
      intro w
      cases w with
      | absent => exact not_or.2 ⟨hdigit, hstar⟩
      | digits ds => exact hdigit
      | star => exact not_false
    rw [precisionContinues]
    cases h.precision with
    | some w => exact hcount w
    | none =>
      rintro (hd | hd | ⟨_, f, hf⟩)
      · exact hdot hd
      · exact hcount _ hd
      · exact FlagChar.char_ne hflag f hf
  cases hl : h.length with
  | none => exact ⟨c, rest, rfl, fun hp => hprec ⟨hl, hp⟩⟩
  | l => exact ⟨_, _, rfl, hletter _ (by decide)⟩
  | ll => exact ⟨_, _, rfl, hletter _ (by decide)⟩
  | h => exact ⟨_, _, rfl, hletter _ (by decide)⟩
  | hh => exact ⟨_, _, rfl, hletter _ (by decide)⟩
  | j => exact ⟨_, _, rfl, hletter _ (by decide)⟩
  | z => exact ⟨_, _, rfl, hletter _ (by decide)⟩

/-- Nor does what comes after the width go on with it. -/
theorem Header.exists_precision_head (hd : ¬ h.precisionContinues d) (tail : List (BitVec 8)) :
    ∃ e tail', precisionChars h.precision ++ d :: tail = e :: tail' ∧ ¬ h.widthContinues e := by
  rw [precisionContinues] at hd
  cases hp : h.precision with
  | none =>
    rw [hp] at hd
    exact ⟨d, tail, rfl, (not_or.1 hd).2⟩
  | some w =>
    refine ⟨ch '.', w.chars ++ d :: tail, rfl, ?_⟩
    rintro (hdot | ⟨_, f, hf⟩)
    · cases hw : h.width with
      | absent =>
        rw [hw] at hdot
        revert hdot
        change ¬ (isDigit (ch '.') = true ∨ ch '.' = ch '*')
        decide
      | digits ds =>
        rw [hw] at hdot
        revert hdot
        change ¬ isDigit (ch '.') = true
        decide
      | star =>
        rw [hw] at hdot
        exact hdot
    · exact FlagChar.char_ne (by decide) f hf

theorem Header.Wf.exists_width_head (hw : h.Wf) (he : ¬ h.widthContinues e)
    (tail : List (BitVec 8)) :
    ∃ d tail', h.width.chars ++ e :: tail = d :: tail' ∧ ∀ f : FlagChar, d ≠ f.char := by
  obtain ⟨hcount, habsent⟩ := not_or.1 he
  cases hwidth : h.width with
  | absent =>
    refine ⟨e, tail, rfl, fun f hf => ?_⟩
    exact habsent ⟨hwidth, f, hf⟩
  | digits ds =>
    have hds : (Count.digits ds).Wf := hwidth ▸ hw.width
    obtain ⟨hne, hds⟩ := hds
    obtain ⟨d, ds', rfl⟩ := List.exists_cons_of_ne_nil hne
    refine ⟨d, ds' ++ e :: tail, rfl, ne_char_of_isDigit (hds d List.mem_cons_self) ?_⟩
    rintro rfl
    apply hw.head
    rw [hwidth]
    rfl
  | star => exact ⟨ch '*', e :: tail, rfl, FlagChar.char_ne (by decide)⟩

/-- A header before the rest of a format, split where the parser comes to its next field. -/
def Header.Stages (h : Header) (format rest : List (BitVec 8)) : Prop :=
  ∃ a b d t u v, format = h.flags.map FlagChar.char ++ a :: t ∧
    a :: t = h.width.chars ++ b :: u ∧ b :: u = precisionChars h.precision ++ d :: v ∧
    d :: v = h.length.chars ++ rest ∧ (∀ f : FlagChar, a ≠ f.char) ∧ ¬ h.width.Continues b ∧
    (∀ w, h.precision = some w → ¬ w.Continues d) ∧ (h.precision = none → d ≠ ch '.')

theorem Header.Wf.stages (hw : h.Wf) (hc : ¬ h.Continues c) (rest : List (BitVec 8)) :
    h.Stages (h.chars ++ c :: rest) (c :: rest) := by
  obtain ⟨d, v, hd, hprec⟩ := h.exists_length_head hc rest
  obtain ⟨b, u, hb, hwidth⟩ := h.exists_precision_head hprec v
  obtain ⟨a, t, ha, hflag⟩ := hw.exists_width_head hwidth u
  refine ⟨a, b, d, t, u, v, ?_, ha.symm, hb.symm, hd.symm, hflag, (not_or.1 hwidth).1, ?_, ?_⟩
  · rw [← ha, ← hb, ← hd]
    simp only [Header.chars, List.append_assoc]
  · intro w hp
    rw [Header.precisionContinues, hp] at hprec
    exact hprec
  · intro hp
    rw [Header.precisionContinues, hp] at hprec
    exact (not_or.1 hprec).1

theorem parseDirective_append (hw : h.Wf) (hc : ¬ h.Continues c) (rest : List (BitVec 8))
    (va : List Arg) :
    parseDirective (h.chars ++ c :: rest) va =
      (h.parse va).map fun p => { p with format := c :: rest } := by
  obtain ⟨a, b, d, t, u, v, h₀, h₁, h₂, h₃, hflag, hwidth, hsome, hnone⟩ := hw.stages hc rest
  rw [h₀, parseDirective, parseFlags_append _ hflag, Header.parse, h₁]
  change (parseWidth { (⟨_, 0, 0, [], va⟩ : Parse) with format := h.width.chars ++ b :: u } >>=
    _) = _
  rw [parseWidth_append hw.width hwidth]
  cases h.width.setWidth ⟨h.flags.foldl Flags.set .none, 0, 0, [], va⟩ with
  | error err => rfl
  | ok q =>
    change (parsePrecision { q with format := b :: u } >>= _) =
      Except.map _ (setPrecisionField q h.precision >>= _)
    rw [h₂, parsePrecision_append hw.precision hsome hnone]
    cases setPrecisionField q h.precision with
    | error err => rfl
    | ok r =>
      change parseLength { r with format := d :: v } = _
      rw [h₃, parseLength_append (not_or.1 hc).1]
      rfl

end Parsing

end AdaOS.Printf
