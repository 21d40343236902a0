import AdaOS.Printf
import AdaOS.TracedFeed

namespace AdaOS.Printf
set_option autoImplicit true

/-- A computation that puts out characters, wherever they go. -/
abbrev Text := Traced (BitVec 8) Fault

open Traced

def spaces (n : Nat) : List (BitVec 8) := List.replicate n (ch ' ')

def padding (pad : Bool) (n : Nat) : List (BitVec 8) := if pad then spaces n else []

def revText (buf : List (BitVec 8)) (width : Nat) (flags : Flags) : List (BitVec 8) :=
  padding (!flags.left && !flags.zeropad) (width - buf.length) ++
    (buf.reverse ++ padding flags.left (width - buf.length))

def formatText (buf : List (BitVec 8)) (negative : Bool) (base prec width : Nat) (flags : Flags) :
    List (BitVec 8) :=
  let width := padWidth negative width flags
  let buf := padZeros prec width flags buf
  let buf := if flags.hash then hashPrefix base prec width flags buf else buf
  revText (signPrefix negative flags buf) width flags

def longText (value : Nat) (negative : Bool) (base prec width : Nat) (flags : Flags) :
    List (BitVec 8) :=
  let flags := if value = 0 then { flags with hash := false } else flags
  formatText (valueDigits flags base value) negative base prec width flags

def integerText (c : BitVec 8) (p : Parse) (arg : Arg) : List (BitVec 8) :=
  let flags := integerFlags c p.flags
  if isSigned c then
    let value := signedArg flags arg
    longText (if 0 < value.toInt then value else 0 - value).toNat (value.toInt < 0)
      (specifierBase c) p.precision p.width flags
  else longText (unsignedArg flags arg).toNat false (specifierBase c) p.precision p.width flags

def charText (p : Parse) : Text (List Arg) := do
  emits (padding (!p.flags.left) (p.width - 1))
  let (arg, va) ← call (vaArg p.va)
  emits [arg.word.setWidth 8]
  emits (padding p.flags.left (p.width - 1))
  pure va

def stringText (limited : Bool) : List (BitVec 8) → Nat → Text Unit
  | [], _ => call (.error .outOfBounds)
  | c :: p, precision =>
    if c = 0 ∨ (limited ∧ precision = 0) then pure ()
    else do
      emits [c]
      stringText limited p (precision - 1)

def stringArgText (p : Parse) (arg : Arg) : Text Unit := do
  let l ← call (stringWidth p arg)
  emits (padding (!p.flags.left) (p.width - l))
  stringText p.flags.precision arg.target p.precision
  emits (padding p.flags.left (p.width - l))

def pointerText (p : Parse) (arg : Arg) : List (BitVec 8) :=
  longText arg.word.toNat false 16 p.precision 16
    { p.flags with zeropad := true, uppercase := true }

/-- The text of a directive that is parsed up to its specifier. -/
def specifierText (c : BitVec 8) (p : Parse) : Text (List Arg) :=
  if isInteger c then do
    let (arg, va) ← call (vaArg p.va)
    emits (integerText c p arg)
    pure va
  else if c = ch 'c' then charText p
  else if c = ch 's' then do
    let (arg, va) ← call (vaArg p.va)
    stringArgText p arg
    pure va
  else if c = ch 'p' then do
    let (arg, va) ← call (vaArg p.va)
    emits (pointerText p arg)
    pure va
  else do
    emits [c]
    pure p.va

def directiveText (p : Parse) : Text (List (BitVec 8) × List Arg) :=
  match p.format with
  | [] => call (.error .outOfBounds)
  | c :: format => do
    let va ← specifierText c p
    pure (format, va)

def loopText : Nat → List (BitVec 8) → List Arg → Text Unit
  | 0, _, _ => call (.error .diverges)
  | _ + 1, [], _ => call (.error .outOfBounds)
  | fuel + 1, c :: format, va =>
    if c = 0 then pure ()
    else if c ≠ ch '%' then do
      emits [c]
      loopText fuel format va
    else do
      let p ← call (parseDirective format va)
      let (format, va) ← directiveText p
      loopText fuel format va

/-- What a format and its arguments come to: the characters, and how it ends. -/
def text (format : List (BitVec 8)) (va : List Arg) : Text Unit :=
  loopText (format.length + 1) format va

section Feed
variable {β : Type} {out : OutFct β} {maxlen : Nat} {s : Cursor β}

theorem putSpaces_eq : putSpaces out maxlen s n = (spaces n).foldlM (put out maxlen) s := by
  induction n generalizing s with
  | zero => rfl
  | succ n ih =>
    rw [putSpaces, spaces, List.replicate_succ, List.foldlM_cons]
    exact bind_congr fun s' => ih

theorem putReversed_eq (buf : List (BitVec 8)) :
    putReversed out maxlen s buf = buf.reverse.foldlM (put out maxlen) s := by
  induction buf with
  | nil => rfl
  | cons c buf ih =>
    rw [putReversed, ih, List.reverse_cons, List.foldlM_append]
    apply bind_congr
    intro s'
    rw [List.foldlM_cons]
    exact (bind_pure _).symm

theorem putPadding_eq (pad : Bool) :
    putPadding out maxlen s pad n = (padding pad n).foldlM (put out maxlen) s := by
  cases pad with
  | false => rfl
  | true => exact putSpaces_eq

theorem outRev_eq (buf : List (BitVec 8)) (width : Nat) (flags : Flags) :
    outRev out maxlen s buf width flags =
      (revText buf width flags).foldlM (put out maxlen) s := by
  rw [outRev, revText, List.foldlM_append, putPadding_eq]
  apply bind_congr
  intro s'
  rw [putReversed_eq, List.foldlM_append]
  exact bind_congr fun s'' => putPadding_eq _

theorem ntoaFormat_eq (buf : List (BitVec 8)) (negative : Bool) (base prec width : Nat)
    (flags : Flags) :
    ntoaFormat out maxlen s buf negative base prec width flags =
      (formatText buf negative base prec width flags).foldlM (put out maxlen) s :=
  outRev_eq _ _ _

theorem ntoaLong_eq (value : Nat) (negative : Bool) (base prec width : Nat) (flags : Flags) :
    ntoaLong out maxlen s value negative base prec width flags =
      (longText value negative base prec width flags).foldlM (put out maxlen) s :=
  ntoaFormat_eq _ _ _ _ _ _

theorem putInteger_eq (c : BitVec 8) (p : Parse) (arg : Arg) :
    putInteger out maxlen s c p arg = (integerText c p arg).foldlM (put out maxlen) s := by
  have hntoa : (if (integerFlags c p.flags).longLong then ntoaLongLong out maxlen
      else ntoaLong out maxlen) = ntoaLong out maxlen := ite_self _
  rw [putInteger, integerText]
  dsimp only
  rw [hntoa]
  split
  · exact ntoaLong_eq _ _ _ _ _ _
  · exact ntoaLong_eq _ _ _ _ _ _

theorem putChar_eq (p : Parse) :
    putChar out maxlen s p = feed (put out maxlen) (charText p) s := by
  rw [putChar, charText, feed_emits_bind, putPadding_eq]
  apply bind_congr
  intro s'
  rw [feed_call_bind]
  apply bind_congr
  rintro ⟨arg, va⟩
  dsimp only
  rw [feed_one_bind]
  apply bind_congr
  intro s''
  rw [feed_emits_bind, putPadding_eq]
  rfl

theorem putString_eq (limited : Bool) (str : List (BitVec 8)) (precision : Nat) :
    putString out maxlen limited s str precision =
      (feed (put out maxlen) (stringText limited str precision) s).map Prod.fst := by
  induction str generalizing s precision with
  | nil => rfl
  | cons c str ih =>
    rw [putString, stringText]
    split
    · rfl
    · rw [feed_one_bind]
      cases put out maxlen s c with
      | error e => rfl
      | ok s' => exact ih _

theorem putStringArg_eq (p : Parse) (arg : Arg) :
    putStringArg out maxlen s p arg =
      (feed (put out maxlen) (stringArgText p arg) s).map Prod.fst := by
  rw [putStringArg, stringArgText, feed_call_bind]
  cases stringWidth p arg with
  | error e => rfl
  | ok l =>
    change (putPadding out maxlen s _ _ >>= _) = (feed _ _ s).map _
    rw [feed_emits_bind, putPadding_eq]
    cases (padding (!p.flags.left) (p.width - l)).foldlM (put out maxlen) s with
    | error e => rfl
    | ok s' =>
      change (putString out maxlen _ s' _ _ >>= _) = (feed _ _ s').map _
      rw [feed_bind, putString_eq]
      cases feed (put out maxlen) (stringText p.flags.precision arg.target p.precision) s' with
      | error e => rfl
      | ok r =>
        change putPadding out maxlen r.1 _ _ = (feed _ _ r.1).map _
        rw [putPadding_eq, feed_emits]
        cases (padding p.flags.left (p.width - l)).foldlM (put out maxlen) r.1 with
        | error e => rfl
        | ok s'' => rfl

theorem putPointer_eq (p : Parse) (arg : Arg) :
    putPointer out maxlen s p arg = (pointerText p arg).foldlM (put out maxlen) s :=
  ntoaLong_eq _ _ _ _ _ _

theorem putSpecifier_eq (p : Parse) :
    putSpecifier out maxlen s p = feed (put out maxlen) (directiveText p) s := by
  rw [putSpecifier, directiveText]
  cases p.format with
  | nil => rfl
  | cons c format =>
    dsimp only
    rw [feed_bind, specifierText]
    split_ifs with hint hchar hstr hptr hpct
    · rw [feed_call_bind, bind_assoc]
      apply bind_congr
      rintro ⟨arg, va⟩
      dsimp only
      rw [feed_emits_bind, putInteger_eq, bind_assoc]
      rfl
    · rw [putChar_eq]
      rfl
    · rw [feed_call_bind, bind_assoc]
      apply bind_congr
      rintro ⟨arg, va⟩
      dsimp only
      rw [feed_bind, putStringArg_eq]
      cases feed (put out maxlen) (stringArgText p arg) s with
      | error e => rfl
      | ok r => rfl
    · rw [feed_call_bind, bind_assoc]
      apply bind_congr
      rintro ⟨arg, va⟩
      dsimp only
      rw [feed_emits_bind, putPointer_eq, bind_assoc]
      rfl
    · rw [feed_one_bind, hpct, bind_assoc]
      rfl
    · rw [feed_one_bind, bind_assoc]
      rfl

/-- The loop puts out its text, through any output function. -/
theorem vsnprintfLoop_eq (fuel : Nat) (format : List (BitVec 8)) (va : List Arg) :
    vsnprintfLoop out maxlen fuel s format va =
      (feed (put out maxlen) (loopText fuel format va) s).map Prod.fst := by
  induction fuel generalizing s format va with
  | zero => rfl
  | succ fuel ih =>
    cases format with
    | nil => rfl
    | cons c format =>
      rw [vsnprintfLoop, loopText]
      split_ifs with hnul hplain
      · rfl
      · rw [feed_one_bind]
        cases put out maxlen s c with
        | error e => rfl
        | ok s' => exact ih _ _
      · rw [feed_call_bind]
        cases parseDirective format va with
        | error e => rfl
        | ok p =>
          change (putSpecifier out maxlen s p >>= _) = (feed _ _ s).map _
          rw [feed_bind, putSpecifier_eq]
          cases feed (put out maxlen) (directiveText p) s with
          | error e => rfl
          | ok r => exact ih _ _

end Feed

end AdaOS.Printf
