import AdaOS.PrintfStandard

namespace AdaOS.Printf
set_option autoImplicit true

open Traced

/-- The characters of an object up to its first terminator. -/
def chars (target : List (BitVec 8)) : List (BitVec 8) := target.takeWhile (· ≠ 0)

/-- The C standard's characters for the conversion `s`. -/
def standardString (p : Parse) (arg : Arg) : List (BitVec 8) :=
  if p.flags.precision then (chars arg.target).take p.precision else chars arg.target

/-- A terminator comes, or the characters read for a precision and one more are there. -/
def Readable (target : List (BitVec 8)) (precision : Nat) : Prop :=
  0 ∈ target ∨ (0 < precision ∧ precision < target.length)

instance (target : List (BitVec 8)) (precision : Nat) : Decidable (Readable target precision) :=
  inferInstanceAs (Decidable (0 ∈ target ∨ (0 < precision ∧ precision < target.length)))

theorem chars_nul (l : List (BitVec 8)) : chars (0 :: l) = [] := rfl

theorem chars_cons (hc : c ≠ 0) (l : List (BitVec 8)) : chars (c :: l) = c :: chars l :=
  List.takeWhile_cons_of_pos (decide_eq_true hc)

theorem length_chars_le (l : List (BitVec 8)) : (chars l).length ≤ l.length :=
  List.Sublist.length_le (List.takeWhile_sublist _)

theorem strnlenS_eq (l : List (BitVec 8)) (m : Nat) :
    strnlenS l m =
      if 0 ∈ l ∨ m < l.length then .ok (min m (chars l).length) else .error .outOfBounds := by
  induction l generalizing m with
  | nil =>
    have hno : ¬ (0 ∈ ([] : List (BitVec 8)) ∨ m < ([] : List (BitVec 8)).length) :=
      not_or.2 ⟨List.not_mem_nil, Nat.not_lt_zero m⟩
    rw [strnlenS, if_neg hno]
  | cons c l ih =>
    rw [strnlenS]
    by_cases hc : c = 0
    · subst hc
      rw [if_pos (.inl rfl), if_pos (.inl List.mem_cons_self), chars_nul, List.length_nil,
        Nat.min_zero]
    · have hmem : 0 ∈ c :: l ↔ 0 ∈ l := by
        rw [List.mem_cons]
        exact or_iff_right (Ne.symm hc)
      simp only [hmem, chars_cons hc, List.length_cons]
      cases m with
      | zero =>
        have hyes : 0 ∈ l ∨ 0 < l.length + 1 := .inr (Nat.succ_pos _)
        rw [if_pos (.inr rfl), if_pos hyes, Nat.zero_min]
      | succ m =>
        rw [if_neg (not_or.2 ⟨hc, Nat.succ_ne_zero m⟩), Nat.add_sub_cancel, ih]
        simp only [Nat.add_lt_add_iff_right]
        split
        · rw [Nat.add_min_add_right]
          rfl
        · rfl

theorem stringText_limited (h : 0 ∈ l ∨ n < l.length) :
    stringText true l n = emits ((chars l).take n) := by
  induction l generalizing n with
  | nil =>
    obtain h | h := h
    · cases h
    · exact absurd h (Nat.not_lt_zero n)
  | cons c l ih =>
    rw [stringText]
    by_cases hc : c = 0
    · subst hc
      rw [if_pos (.inl rfl), chars_nul, List.take_nil]
      rfl
    · rw [chars_cons hc]
      cases n with
      | zero =>
        rw [if_pos (.inr ⟨rfl, rfl⟩)]
        rfl
      | succ n =>
        have hstop : ¬ (c = 0 ∨ (true = true ∧ n + 1 = 0)) :=
          not_or.2 ⟨hc, fun h => Nat.succ_ne_zero n h.2⟩
        have hrest : 0 ∈ l ∨ n < l.length := by
          obtain h | h := h
          · exact .inl ((List.mem_cons.1 h).resolve_left (Ne.symm hc))
          · exact .inr (Nat.lt_of_succ_lt_succ h)
        rw [if_neg hstop, Nat.add_sub_cancel, ih hrest]
        rfl

theorem stringText_unlimited (h : 0 ∈ l) (n : Nat) : stringText false l n = emits (chars l) := by
  induction l generalizing n with
  | nil => cases h
  | cons c l ih =>
    rw [stringText]
    by_cases hc : c = 0
    · subst hc
      rw [if_pos (.inl rfl)]
      rfl
    · have hstop : ¬ (c = 0 ∨ (false = true ∧ n = 0)) :=
        not_or.2 ⟨hc, fun h => Bool.false_ne_true h.1⟩
      rw [if_neg hstop, ih ((List.mem_cons.1 h).resolve_left (Ne.symm hc)), chars_cons hc]
      rfl

theorem stringWidth_eq (hp : p.flags.precision = false → p.precision = 0)
    (hlen : arg.target.length < 2 ^ 32) :
    stringWidth p arg =
      if Readable arg.target p.precision then .ok (standardString p arg).length
      else .error .outOfBounds := by
  have hle := length_chars_le arg.target
  have hread : (0 ∈ arg.target ∨
      (if p.precision ≠ 0 then p.precision else 2 ^ 64 - 1) < arg.target.length) ↔
        Readable arg.target p.precision := by
    rw [Readable]
    apply or_congr_right
    split
    · exact ⟨fun h => ⟨by omega, h⟩, And.right⟩
    · exact ⟨fun h => by omega, fun h => by omega⟩
  rw [stringWidth]
  dsimp only
  rw [strnlenS_eq]
  by_cases hok : Readable arg.target p.precision
  · rw [if_pos (hread.2 hok), if_pos hok, standardString]
    change Except.ok (if p.flags.precision = true then (if u32 _ < p.precision then u32 _
      else p.precision) else u32 _) = _
    have hwrap : u32 (min (if p.precision ≠ 0 then p.precision else 2 ^ 64 - 1)
        (chars arg.target).length) =
          min (if p.precision ≠ 0 then p.precision else 2 ^ 64 - 1) (chars arg.target).length :=
      u32_of_lt (by omega)
    rw [hwrap]
    cases hflag : p.flags.precision with
    | true =>
      rw [if_pos rfl, if_pos rfl, List.length_take]
      congr 1
      by_cases h0 : p.precision = 0
      · rw [h0, if_neg (Nat.not_lt_zero _), Nat.zero_min]
      · rw [if_pos h0]
        split <;> omega
    | false =>
      rw [hp hflag]
      rw [if_neg Bool.false_ne_true, if_neg Bool.false_ne_true]
      congr 1
      rw [if_neg (fun h => h rfl)]
      omega
  · rw [if_neg (mt hread.1 hok), if_neg hok]
    rfl

theorem stringArgText_eq (hp : p.flags.precision = false → p.precision = 0)
    (hlen : arg.target.length < 2 ^ 32) :
    stringArgText p arg =
      if Readable arg.target p.precision then
        emits (standardField (standardString p arg) p.width p.flags.left)
      else call (.error .outOfBounds) := by
  rw [stringArgText, stringWidth_eq hp hlen]
  by_cases hok : Readable arg.target p.precision
  · have htext : stringText p.flags.precision arg.target p.precision =
        emits (standardString p arg) := by
      rw [standardString]
      cases hflag : p.flags.precision with
      | true => exact stringText_limited (hok.imp_right And.right)
      | false =>
        have hmem : 0 ∈ arg.target := hok.resolve_right fun h => by
          rw [hp hflag] at h
          exact Nat.lt_irrefl 0 h.1
        exact stringText_unlimited hmem _
    rw [if_pos hok, if_pos hok]
    change (emits (padding (!p.flags.left) (p.width - (standardString p arg).length)) >>=
      fun _ => _) = _
    rw [htext, ← emits_append, ← emits_append, standardField]
    cases p.flags.left with
    | true => rfl
    | false =>
      rw [if_neg Bool.false_ne_true]
      exact congrArg emits (congrArg _ (List.append_nil _))
  · rw [if_neg hok, if_neg hok]
    rfl

/-- A string is printed as the C standard says if a terminator comes or if one byte more is there
than its precision asks for, and read out of bounds otherwise. -/
theorem putStringArg_iff {h : Header} (hp : h.parse va = .ok p)
    (hlen : arg.target.length < 2 ^ 32) :
    (Readable arg.target p.precision →
      PutsOut (fun _ out maxlen s => putStringArg out maxlen s p arg)
        (standardField (standardString p arg) p.width p.flags.left)) ∧
    (¬ Readable arg.target p.precision → ∀ (β : Type) (out : OutFct β) (maxlen : Nat)
      (s : Cursor β), putStringArg out maxlen s p arg = .error .outOfBounds) := by
  have htext : stringArgText p arg =
      if Readable arg.target p.precision then
        emits (standardField (standardString p arg) p.width p.flags.left)
      else call (.error .outOfBounds) := stringArgText_eq (Header.parse_fresh hp).2 hlen
  constructor
  · intro hok β out maxlen s
    rw [if_pos hok] at htext
    change putStringArg out maxlen s p arg = _
    rw [putStringArg_eq, htext, feed_emits]
    cases (standardField (standardString p arg) p.width p.flags.left).foldlM (put out maxlen) s with
    | error e => rfl
    | ok s' => rfl
  · intro hno β out maxlen s
    rw [if_neg hno] at htext
    rw [putStringArg_eq, htext]
    rfl

theorem putStringArg_iff_short :
    (Readable (stringLiteral "ab") 0 →
      PutsOut (fun _ out maxlen s => putStringArg out maxlen s ⟨.none, 0, 0, [], []⟩
          (.ofString "ab"))
        (standardField (standardString ⟨.none, 0, 0, [], []⟩ (.ofString "ab")) 0 false)) ∧
    (¬ Readable (stringLiteral "ab") 0 → ∀ (β : Type) (out : OutFct β) (maxlen : Nat)
      (s : Cursor β), putStringArg out maxlen s ⟨.none, 0, 0, [], []⟩ (.ofString "ab") =
        .error .outOfBounds) := by
  have hlen : (Arg.ofString "ab").target.length < 2 ^ 32 := by decide
  exact putStringArg_iff (h := ⟨[], .absent, none, .none⟩) rfl hlen

end AdaOS.Printf
