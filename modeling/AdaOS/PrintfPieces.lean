import AdaOS.PrintfGrammar

namespace AdaOS.Printf
set_option autoImplicit true

open Traced

section Fuel
variable {format : List (BitVec 8)} {p q : Parse}

theorem parseFlags_le (h : parseFlags flags format = .ok r) : r.2.length ≤ format.length := by
  induction format generalizing flags with
  | nil => cases h
  | cons c format ih =>
    rw [parseFlags] at h
    split_ifs at h
    case neg =>
      cases h
      exact Nat.le_refl _
    all_goals exact Nat.le_succ_of_le (ih h)

theorem atoi_le (h : atoi i format = .ok r) : r.2.length ≤ format.length := by
  induction format generalizing i with
  | nil => cases h
  | cons c format ih =>
    rw [atoi] at h
    split_ifs at h
    · exact Nat.le_succ_of_le (ih h)
    · cases h
      exact Nat.le_refl _

theorem parseWidth_le (h : parseWidth p = .ok q) : q.format.length ≤ p.format.length := by
  rw [parseWidth] at h
  split at h
  · cases h
  · rename_i c format hp
    split_ifs at h
    · obtain ⟨r, hr, hq⟩ := bind_ok h
      cases hq
      exact atoi_le hr
    · obtain ⟨r, _, hq⟩ := bind_ok h
      dsimp only at hq
      rw [hp]
      split_ifs at hq
      · cases hq
        exact Nat.le_succ _
      · cases hq
        exact Nat.le_succ _
    · cases h
      exact Nat.le_refl _

theorem parsePrecisionValue_le (h : parsePrecisionValue p = .ok q) :
    q.format.length ≤ p.format.length := by
  rw [parsePrecisionValue] at h
  split at h
  · cases h
  · rename_i c format hp
    split_ifs at h
    · obtain ⟨r, hr, hq⟩ := bind_ok h
      cases hq
      exact atoi_le hr
    · obtain ⟨r, _, hq⟩ := bind_ok h
      cases hq
      rw [hp]
      exact Nat.le_succ _
    · cases h
      exact Nat.le_refl _

theorem parsePrecision_le (h : parsePrecision p = .ok q) : q.format.length ≤ p.format.length := by
  rw [parsePrecision] at h
  split at h
  · cases h
  · rename_i c format hp
    split_ifs at h
    · rw [hp]
      exact Nat.le_succ_of_le (parsePrecisionValue_le h)
    · cases h
      exact Nat.le_refl _

theorem parseLength_le (h : parseLength p = .ok q) : q.format.length ≤ p.format.length := by
  rw [parseLength] at h
  split at h
  · cases h
  · rename_i c format hp
    rw [hp]
    split_ifs at h
    · cases format with
      | nil => cases h
      | cons d format' =>
        dsimp only at h
        split_ifs at h
        · cases h
          exact Nat.le_succ_of_le (Nat.le_succ _)
        · cases h
          exact Nat.le_succ _
    · cases format with
      | nil => cases h
      | cons d format' =>
        dsimp only at h
        split_ifs at h
        · cases h
          exact Nat.le_succ_of_le (Nat.le_succ _)
        · cases h
          exact Nat.le_succ _
    · cases h
      exact Nat.le_succ _
    · cases h
      exact Nat.le_of_eq (congrArg List.length hp)

theorem parseDirective_le (h : parseDirective format va = .ok p) :
    p.format.length ≤ format.length := by
  obtain ⟨r, hflags, h⟩ := bind_ok h
  obtain ⟨q, hwidth, h⟩ := bind_ok h
  obtain ⟨q', hprecision, hlength⟩ := bind_ok h
  calc p.format.length ≤ q'.format.length := parseLength_le hlength
    _ ≤ q.format.length := parsePrecision_le hprecision
    _ ≤ r.2.length := parseWidth_le hwidth
    _ ≤ format.length := parseFlags_le hflags

theorem directiveText_lt (h : (directiveText p).result = .ok r) :
    r.1.length < p.format.length := by
  rw [directiveText] at h
  split at h
  · cases h
  · rename_i c format hp
    rw [result_bind] at h
    obtain ⟨va, _, hr⟩ := bind_ok h
    cases hr
    rw [hp]
    exact Nat.lt_succ_self _

/-- More turns than the format has characters change nothing. -/
theorem loopText_congr (hm : format.length < m) (hn : format.length < n) (va : List Arg) :
    loopText m format va = loopText n format va := by
  induction m generalizing n format va with
  | zero => cases hm
  | succ m ih =>
    obtain ⟨n, rfl⟩ : ∃ k, n = k + 1 := ⟨n - 1, by omega⟩
    cases format with
    | nil => rfl
    | cons c format =>
      rw [List.length_cons] at hm hn
      rw [loopText, loopText]
      split_ifs with hnul hplain
      · rfl
      · apply bind_congr
        intro _
        exact ih (by omega) (by omega) va
      · apply bind_congr_result
        intro p hp
        apply bind_congr_result
        intro r hr
        have hle := parseDirective_le hp
        have hlt := directiveText_lt hr
        exact ih (by omega) (by omega) _

theorem loopText_eq (h : format.length < n) (va : List Arg) :
    loopText n format va = text format va := loopText_congr h (Nat.lt_succ_self _) va

/-- The only failure is an access outside of an object. -/
def OnlyBounds (x : Except Fault α) : Prop := ∀ e, x = .error e → e = .outOfBounds

namespace OnlyBounds

theorem ok (a : α) : OnlyBounds (.ok a) := fun _ h => nomatch h

theorem outOfBounds : OnlyBounds (α := α) (.error .outOfBounds) := by
  intro e h
  cases h
  rfl

theorem bind {x : Except Fault α} {f : α → Except Fault β} (hx : OnlyBounds x)
    (hf : ∀ a, x = .ok a → OnlyBounds (f a)) : OnlyBounds (x >>= f) := by
  intro e h
  rcases bind_error h with h | ⟨a, ha, h⟩
  · exact hx e h
  · exact hf a ha e h

theorem map {x : Except Fault α} (hx : OnlyBounds x) (f : α → β) : OnlyBounds (x.map f) := by
  cases x with
  | error e =>
    rw [hx e rfl]
    exact outOfBounds
  | ok a => exact ok _

end OnlyBounds

end Fuel

theorem text_lit (h0 : c ≠ 0) (hc : c ≠ ch '%') (rest : List (BitVec 8)) (va : List Arg) :
    text (c :: rest) va = emits [c] >>= fun _ => text rest va := by
  rw [text, loopText, if_neg h0, if_pos hc]
  apply bind_congr
  intro _
  exact loopText_eq (Nat.lt_succ_self _) va

theorem specifierText_format (c : BitVec 8) (p : Parse) (format : List (BitVec 8)) :
    specifierText c { p with format := format } = specifierText c p := rfl

theorem text_directive {h : Header} (hw : h.Wf) (hc : ¬ h.Continues c) (rest : List (BitVec 8))
    (va : List Arg) :
    text (ch '%' :: (h.chars ++ c :: rest)) va =
      (Piece.directive h c).text va >>= fun va => text rest va := by
  have hnul : ch '%' ≠ 0 := by decide
  have hplain : ¬ ch '%' ≠ ch '%' := fun hne => hne rfl
  rw [text, loopText, if_neg hnul, if_neg hplain, parseDirective_append hw hc, Piece.text,
    bind_assoc]
  cases h.parse va with
  | error e => rfl
  | ok p =>
    change (directiveText { p with format := c :: rest } >>= _) = (specifierText c p >>= _)
    rw [directiveText, bind_assoc]
    dsimp only
    rw [specifierText_format]
    apply bind_congr
    intro va'
    apply loopText_eq
    change rest.length < _
    rw [List.length_cons, List.length_append, List.length_cons]
    omega

theorem text_piece {p : Piece} (hp : p.Wf) (rest : List (BitVec 8)) (va : List Arg) :
    text (p.chars ++ rest) va = p.text va >>= fun va => text rest va := by
  cases p with
  | lit c =>
    obtain ⟨h0, hc⟩ := hp
    exact text_lit h0 hc rest va
  | directive h c =>
    obtain ⟨_, hw, hc⟩ := hp
    have hchars : (Piece.directive h c).chars ++ rest = ch '%' :: (h.chars ++ c :: rest) := by
      rw [Piece.chars, List.cons_append, List.append_assoc]
      rfl
    rw [hchars]
    exact text_directive hw hc rest va

theorem text_render {ps : List Piece} (hps : ∀ p ∈ ps, p.Wf) (rest : List (BitVec 8))
    (va : List Arg) : text (render ps ++ rest) va = texts ps va >>= fun va => text rest va := by
  induction ps generalizing va with
  | nil => rfl
  | cons p ps ih =>
    obtain ⟨hp, hps⟩ := List.forall_mem_cons.1 hps
    have hrender : render (p :: ps) ++ rest = p.chars ++ (render ps ++ rest) := by
      rw [render, List.flatMap_cons, List.append_assoc]
      rfl
    rw [hrender, text_piece hp, texts, List.foldlM_cons, bind_assoc]
    exact bind_congr fun va' => ih hps va'

/-- Pieces that use up their arguments and come to a text. -/
def ComesTo (ps : List Piece) (va : List Arg) (t : List (BitVec 8)) : Prop :=
  texts ps va = emits t >>= fun _ => pure []

namespace ComesTo
variable {ps : List Piece} {va : List Arg} {t t' : List (BitVec 8)}

theorem nil : ComesTo [] [] [] := rfl

theorem lit (h : ComesTo ps va t) (c : BitVec 8) : ComesTo (.lit c :: ps) va (c :: t) := by
  rw [ComesTo, texts, List.foldlM_cons, Piece.text, bind_assoc]
  change (emits [c] >>= fun _ => texts ps va) = emits ([c] ++ t) >>= _
  rw [h, emits_append, bind_assoc]

theorem arg {p : Piece} {arg : Arg} (hp : p.text (arg :: va) = emits t >>= fun _ => pure va)
    (h : ComesTo ps va t') : ComesTo (p :: ps) (arg :: va) (t ++ t') := by
  rw [ComesTo, texts, List.foldlM_cons, hp, bind_assoc]
  change (emits t >>= fun _ => texts ps va) = _
  rw [h, emits_append, bind_assoc]

theorem text_eq (h : ComesTo ps va t) (hps : ∀ p ∈ ps, p.Wf) (rest : List (BitVec 8)) :
    text (render ps ++ 0 :: rest) va = emits t := by
  rw [text_render hps, h, bind_assoc]
  exact bind_pure (emits t)

end ComesTo

end AdaOS.Printf
