import AdaOS.PrintfPieces

namespace AdaOS.Printf
set_option autoImplicit true

open Traced

/-- The pieces that a string begins with, and the header where it breaks off in a directive. -/
structure Format where
  pieces : List Piece
  broken : Option Header
  deriving DecidableEq

def brokenChars : Option Header → List (BitVec 8)
  | none => []
  | some h => ch '%' :: h.chars

def Format.chars (f : Format) : List (BitVec 8) := render f.pieces ++ brokenChars f.broken

structure Format.Wf (f : Format) : Prop where
  pieces : ∀ p ∈ f.pieces, p.Wf
  broken : ∀ h, f.broken = some h → h.Wf

/-- What a format comes to, where `rest` stands after its terminator. A directive that breaks off
takes the terminator for its specifier. -/
def Format.text (f : Format) (rest : List (BitVec 8)) (va : List Arg) : Text Unit := do
  let va ← texts f.pieces va
  match f.broken with
  | none => pure ()
  | some h => do
    let va ← (Piece.directive h 0).text va
    Printf.text rest va

section Reading
variable {w : Count} {len : Length} {h : Header} {c d : BitVec 8} {rest format : List (BitVec 8)}

theorem exists_flags (h0 : 0 ∈ format) :
    ∃ fs c rest, format = List.map FlagChar.char fs ++ c :: rest ∧ (∀ f : FlagChar, c ≠ f.char) ∧
      0 ∈ c :: rest := by
  induction format with
  | nil => cases h0
  | cons c format ih =>
    by_cases hf : ∃ f : FlagChar, c = f.char
    · obtain ⟨f, rfl⟩ := hf
      have hne : 0 ≠ f.char := FlagChar.char_ne (by decide) f
      obtain ⟨fs, d, rest, rfl, hd, h0⟩ := ih ((List.mem_cons.1 h0).resolve_left hne)
      exact ⟨f :: fs, d, rest, rfl, hd, h0⟩
    · exact ⟨[], c, format, rfl, fun f hc => hf ⟨f, hc⟩, h0⟩

theorem exists_digits (h0 : 0 ∈ format) :
    ∃ ds c rest, format = ds ++ c :: rest ∧ (∀ d ∈ ds, isDigit d = true) ∧ ¬ isDigit c = true ∧
      0 ∈ c :: rest := by
  induction format with
  | nil => cases h0
  | cons c format ih =>
    by_cases hc : isDigit c = true
    · have hne : 0 ≠ c := by
        rintro rfl
        exact absurd hc (by decide)
      obtain ⟨ds, d, rest, rfl, hds, hd, h0⟩ := ih ((List.mem_cons.1 h0).resolve_left hne)
      exact ⟨c :: ds, d, rest, rfl, List.forall_mem_cons.2 ⟨hc, hds⟩, hd, h0⟩
    · exact ⟨[], c, format, rfl, List.forall_mem_nil _, hc, h0⟩

theorem exists_tail (hd : 0 ≠ d) (h0 : 0 ∈ d :: format) :
    ∃ c rest, format = c :: rest ∧ 0 ∈ c :: rest := by
  have h0 := (List.mem_cons.1 h0).resolve_left hd
  obtain ⟨c, rest, rfl⟩ := List.exists_cons_of_ne_nil (List.ne_nil_of_mem h0)
  exact ⟨c, rest, rfl, h0⟩

theorem exists_count (h0 : 0 ∈ format) :
    ∃ w c rest, format = Count.chars w ++ c :: rest ∧ w.Wf ∧ ¬ w.Continues c ∧ 0 ∈ c :: rest := by
  obtain ⟨ds, c, rest, rfl, hds, hc, h0⟩ := exists_digits h0
  by_cases hne : ds = []
  · subst hne
    by_cases hstar : c = ch '*'
    · subst hstar
      obtain ⟨d, rest, rfl, hd⟩ := exists_tail (by decide) h0
      exact ⟨.star, d, rest, rfl, trivial, not_false, hd⟩
    · exact ⟨.absent, c, rest, rfl, trivial, not_or.2 ⟨hc, hstar⟩, h0⟩
  · exact ⟨.digits ds, c, rest, rfl, ⟨hne, hds⟩, hc, h0⟩

theorem exists_precision (h0 : 0 ∈ format) :
    ∃ pr c rest, format = precisionChars pr ++ c :: rest ∧
      (∀ w, pr = some w → w.Wf ∧ ¬ w.Continues c) ∧ (pr = none → c ≠ ch '.') ∧
      0 ∈ c :: rest := by
  obtain ⟨c, format, rfl⟩ := List.exists_cons_of_ne_nil (List.ne_nil_of_mem h0)
  by_cases hdot : c = ch '.'
  · subst hdot
    obtain ⟨w, d, rest, rfl, hw, hd, h0⟩ :=
      exists_count ((List.mem_cons.1 h0).resolve_left (by decide))
    refine ⟨some w, d, rest, rfl, fun v hv => ?_, ?_, h0⟩
    · cases hv
      exact ⟨hw, hd⟩
    · exact fun hnone => (Option.some_ne_none _ hnone).elim
  · refine ⟨none, c, format, rfl, ?_, fun _ => hdot, h0⟩
    exact fun w hnone => (Option.some_ne_none _ hnone.symm).elim

theorem exists_length (h0 : 0 ∈ format) :
    ∃ len c rest, format = Length.chars len ++ c :: rest ∧ ¬ len.Continues c := by
  obtain ⟨c, format, rfl⟩ := List.exists_cons_of_ne_nil (List.ne_nil_of_mem h0)
  by_cases hc : c = ch 'l' ∨ c = ch 'h' ∨ c = ch 'j' ∨ c = ch 'z'
  · obtain rfl | rfl | rfl | rfl := hc
    · obtain ⟨d, rest, rfl, hrest⟩ := exists_tail (by decide) h0
      by_cases hd : d = ch 'l'
      · subst hd
        obtain ⟨e, rest, rfl, _⟩ := exists_tail (by decide) hrest
        exact ⟨.ll, e, rest, rfl, not_false⟩
      · exact ⟨.l, d, rest, rfl, hd⟩
    · obtain ⟨d, rest, rfl, hrest⟩ := exists_tail (by decide) h0
      by_cases hd : d = ch 'h'
      · subst hd
        obtain ⟨e, rest, rfl, _⟩ := exists_tail (by decide) hrest
        exact ⟨.hh, e, rest, rfl, not_false⟩
      · exact ⟨.h, d, rest, rfl, hd⟩
    · obtain ⟨d, rest, rfl, _⟩ := exists_tail (by decide) h0
      exact ⟨.j, d, rest, rfl, not_false⟩
    · obtain ⟨d, rest, rfl, _⟩ := exists_tail (by decide) h0
      exact ⟨.z, d, rest, rfl, not_false⟩
  · exact ⟨.none, c, format, rfl, hc⟩

/-- Whatever stands after `%` begins with a header, if a terminator comes. -/
theorem exists_header (h0 : 0 ∈ format) :
    ∃ h c rest, format = Header.chars h ++ c :: rest ∧ h.Wf ∧ ¬ h.Continues c := by
  obtain ⟨fs, c₀, rest₀, rfl, hflag, h0⟩ := exists_flags h0
  obtain ⟨w, c₁, rest₁, h₁, hw, hwidth, hrest₁⟩ := exists_count h0
  obtain ⟨pr, c₂, rest₂, h₂, hpr, hnone, hrest₂⟩ := exists_precision hrest₁
  obtain ⟨len, c, rest, h₃, hlen⟩ := exists_length hrest₂
  refine ⟨⟨fs, w, pr, len⟩, c, rest, ?_, ⟨hw, ?_, fun v hv => (hpr v hv).1⟩, ?_⟩
  · rw [h₁, h₂, h₃, Header.chars]
    simp only [List.append_assoc]
  · intro hzero
    obtain ⟨ds, hds⟩ := List.head?_eq_some_iff.1 hzero
    dsimp only at hds
    rw [hds] at h₁
    exact hflag .zero (List.cons.inj h₁).1
  · rintro (hc | ⟨rfl, hc⟩)
    · exact hlen hc
    · obtain rfl : c₂ = c := (List.cons.inj h₃).1
      rw [Header.precisionContinues] at hc
      cases pr with
      | some v => exact (hpr v rfl).2 hc
      | none =>
        obtain rfl : c₁ = c₂ := (List.cons.inj h₂).1
        obtain hc | hc | ⟨rfl, f, hf⟩ := hc
        · exact hnone rfl hc
        · exact hwidth hc
        · obtain rfl : c₀ = c₁ := (List.cons.inj h₁).1
          exact hflag f hf

theorem FlagChar.char_injective : Function.Injective FlagChar.char := by
  intro f g
  cases f <;> cases g <;> decide

theorem split_unique {P : BitVec 8 → Prop} {l l' r r' : List (BitVec 8)} (hl : ∀ x ∈ l, P x)
    (hl' : ∀ x ∈ l', P x) (hc : ¬ P c) (hd : ¬ P d) (h : l ++ c :: r = l' ++ d :: r') :
    l = l' ∧ c = d ∧ r = r' := by
  induction l generalizing l' with
  | nil =>
    cases l' with
    | nil => exact ⟨rfl, List.cons.inj h⟩
    | cons x l' => exact absurd ((List.cons.inj h).1 ▸ hl' x List.mem_cons_self) hc
  | cons x l ih =>
    obtain ⟨hx, hl⟩ := List.forall_mem_cons.1 hl
    cases l' with
    | nil => exact absurd ((List.cons.inj h).1 ▸ hx) hd
    | cons y l' =>
      obtain ⟨hxy, htail⟩ := List.cons.inj h
      obtain ⟨rfl, hrest⟩ := ih hl (List.forall_mem_cons.1 hl').2 htail
      exact ⟨by rw [hxy], hrest⟩

theorem Count.unique {w w' : Count} {r r' : List (BitVec 8)} (hw : w.Wf) (hw' : w'.Wf)
    (hc : ¬ w.Continues c) (hd : ¬ w'.Continues d) (h : w.chars ++ c :: r = w'.chars ++ d :: r') :
    w = w' ∧ c = d ∧ r = r' := by
  have hhead : ∀ {ds t}, (Count.digits ds).Wf → ∃ e t', ds ++ t = e :: t' ∧ isDigit e = true := by
    rintro (_ | ⟨e, ds⟩) t ⟨hne, hds⟩
    · exact absurd rfl hne
    · exact ⟨e, ds ++ t, rfl, hds e List.mem_cons_self⟩
  have hstar : ¬ isDigit (ch '*') = true := by decide
  cases w with
  | absent =>
    cases w' with
    | absent => exact ⟨rfl, List.cons.inj h⟩
    | digits ds =>
      obtain ⟨e, t, he, hdigit⟩ := hhead hw'
      obtain rfl := (List.cons.inj (h.trans he)).1
      exact absurd (.inl hdigit) hc
    | star => exact absurd (.inr (List.cons.inj h).1) hc
  | digits ds =>
    obtain ⟨e, t, he, hdigit⟩ := hhead hw
    cases w' with
    | absent =>
      obtain rfl := (List.cons.inj (he.symm.trans h)).1
      exact absurd (.inl hdigit) hd
    | digits ds' =>
      obtain ⟨rfl, htail⟩ := split_unique hw.2 hw'.2 hc hd h
      exact ⟨rfl, htail⟩
    | star =>
      obtain rfl := (List.cons.inj (he.symm.trans h)).1
      exact absurd hdigit hstar
  | star =>
    cases w' with
    | absent => exact absurd (.inr (List.cons.inj h).1.symm) hd
    | digits ds =>
      obtain ⟨e, t, he, hdigit⟩ := hhead hw'
      obtain rfl := (List.cons.inj (h.trans he)).1
      exact absurd hdigit hstar
    | star => exact ⟨rfl, List.cons.inj (List.cons.inj h).2⟩

theorem precision_unique {pr pr' : Option Count} {r r' : List (BitVec 8)}
    (hw : ∀ w, pr = some w → w.Wf ∧ ¬ w.Continues c) (hc : pr = none → c ≠ ch '.')
    (hw' : ∀ w, pr' = some w → w.Wf ∧ ¬ w.Continues d) (hd : pr' = none → d ≠ ch '.')
    (h : precisionChars pr ++ c :: r = precisionChars pr' ++ d :: r') :
    pr = pr' ∧ c = d ∧ r = r' := by
  cases pr with
  | none =>
    cases pr' with
    | none => exact ⟨rfl, List.cons.inj h⟩
    | some w => exact absurd (List.cons.inj h).1 (hc rfl)
  | some w =>
    cases pr' with
    | none => exact absurd (List.cons.inj h).1.symm (hd rfl)
    | some w' =>
      obtain ⟨rfl, htail⟩ := Count.unique (hw w rfl).1 (hw' w' rfl).1 (hw w rfl).2 (hw' w' rfl).2
        (List.cons.inj h).2
      exact ⟨rfl, htail⟩

/-- The length field at the head of a string. -/
def readLength : List (BitVec 8) → Length
  | c :: d :: _ =>
    if c = ch 'l' then (if d = ch 'l' then .ll else .l)
    else if c = ch 'h' then (if d = ch 'h' then .hh else .h)
    else if c = ch 'j' then .j
    else if c = ch 'z' then .z
    else .none
  | [c] => if c = ch 'j' then .j else if c = ch 'z' then .z else .none
  | [] => .none

theorem readLength_append (hc : ¬ len.Continues c) (r : List (BitVec 8)) :
    readLength (len.chars ++ c :: r) = len := by
  cases len with
  | none =>
    obtain ⟨hl, hh, hj, hz⟩ : c ≠ ch 'l' ∧ c ≠ ch 'h' ∧ c ≠ ch 'j' ∧ c ≠ ch 'z' := by
      simpa only [Length.Continues, not_or] using hc
    cases r with
    | nil =>
      change readLength [c] = _
      rw [readLength, if_neg hj, if_neg hz]
    | cons d r =>
      change readLength (c :: d :: r) = _
      rw [readLength, if_neg hl, if_neg hh, if_neg hj, if_neg hz]
  | l =>
    have hl : ¬ c = ch 'l' := hc
    change (if c = ch 'l' then _ else _) = _
    rw [if_neg hl]
  | h =>
    have hh : ¬ c = ch 'h' := hc
    change (if c = ch 'h' then _ else _) = _
    rw [if_neg hh]
  | ll => rfl
  | hh => rfl
  | j => rfl
  | z => rfl

theorem Length.unique {len' : Length} {r r' : List (BitVec 8)} (hc : ¬ len.Continues c)
    (hd : ¬ len'.Continues d) (h : len.chars ++ c :: r = len'.chars ++ d :: r') :
    len = len' ∧ c = d ∧ r = r' := by
  obtain rfl : len = len' := by
    rw [← readLength_append hc r, h, readLength_append hd]
  exact ⟨rfl, List.cons.inj (List.append_cancel_left h)⟩

/-- A string has one header at most. -/
theorem Header.Wf.unique {h' : Header} {r r' : List (BitVec 8)} (hw : h.Wf) (hw' : h'.Wf)
    (hc : ¬ h.Continues c) (hd : ¬ h'.Continues d) (heq : h.chars ++ c :: r = h'.chars ++ d :: r') :
    h = h' ∧ c = d ∧ r = r' := by
  obtain ⟨a, b, e, t, u, v, h₀, h₁, h₂, h₃, hflag, hwidth, hsome, hnone⟩ := hw.stages hc r
  obtain ⟨a', b', e', t', u', v', h₀', h₁', h₂', h₃', hflag', hwidth', hsome', hnone'⟩ :=
    hw'.stages hd r'
  have hchar : ∀ {fs : List FlagChar} {x}, x ∈ fs.map FlagChar.char →
      ∃ f : FlagChar, x = f.char := by
    intro fs x hx
    obtain ⟨f, _, rfl⟩ := List.mem_map.1 hx
    exact ⟨f, rfl⟩
  have hnot : ∀ {x : BitVec 8}, (∀ f : FlagChar, x ≠ f.char) → ¬ ∃ f : FlagChar, x = f.char :=
    fun hx hf => hf.elim fun f h => hx f h
  obtain ⟨hflags, rfl, rfl⟩ := split_unique (fun _ => hchar) (fun _ => hchar) (hnot hflag)
    (hnot hflag') (h₀.symm.trans (heq.trans h₀'))
  obtain ⟨hwidths, rfl, rfl⟩ := Count.unique hw.width hw'.width hwidth hwidth' (h₁.symm.trans h₁')
  obtain ⟨hprecisions, rfl, rfl⟩ := precision_unique (fun w hp => ⟨hw.precision w hp, hsome w hp⟩)
    hnone (fun w hp => ⟨hw'.precision w hp, hsome' w hp⟩) hnone' (h₂.symm.trans h₂')
  obtain ⟨hlengths, rfl, rfl⟩ :=
    Length.unique (not_or.1 hc).1 (not_or.1 hd).1 (h₃.symm.trans h₃')
  refine ⟨?_, rfl, rfl⟩
  cases h
  cases h'
  dsimp only at hflags hwidths hprecisions hlengths
  rw [(List.map_inj_right fun _ _ h => FlagChar.char_injective h).1 hflags, hwidths, hprecisions,
    hlengths]

theorem Header.not_continues_nul (h : Header) : ¬ h.Continues 0 := by
  have hletter : ∀ x ∈ [ch 'l', ch 'h', ch 'j', ch 'z', ch '.', ch '*'], 0 ≠ x := by decide
  have hdigit : ¬ isDigit 0 = true := by decide
  have hcount : ∀ w : Count, ¬ w.Continues 0 := by
    intro w
    cases w with
    | absent => exact not_or.2 ⟨hdigit, hletter _ (by decide)⟩
    | digits ds => exact hdigit
    | star => exact not_false
  rintro (hl | ⟨_, hp⟩)
  · cases hlen : h.length with
    | none =>
      rw [hlen] at hl
      obtain hl | hl | hl | hl := hl
      all_goals exact hletter _ (by decide) hl
    | l => exact hletter _ (by decide) (hlen ▸ hl : Length.Continues .l 0)
    | h => exact hletter _ (by decide) (hlen ▸ hl : Length.Continues .h 0)
    | ll => exact (hlen ▸ hl : Length.Continues .ll 0)
    | hh => exact (hlen ▸ hl : Length.Continues .hh 0)
    | j => exact (hlen ▸ hl : Length.Continues .j 0)
    | z => exact (hlen ▸ hl : Length.Continues .z 0)
  · rw [Header.precisionContinues] at hp
    cases hprec : h.precision with
    | some w =>
      rw [hprec] at hp
      exact hcount w hp
    | none =>
      rw [hprec] at hp
      obtain hp | hp | ⟨_, f, hf⟩ := hp
      · exact hletter _ (by decide) hp
      · exact hcount _ hp
      · exact FlagChar.char_ne (by decide) f hf

theorem Piece.Wf.unique {p q : Piece} {r r' : List (BitVec 8)} (hp : p.Wf) (hq : q.Wf)
    (h : p.chars ++ r = q.chars ++ r') : p = q ∧ r = r' := by
  cases p with
  | lit c =>
    cases q with
    | lit d =>
      obtain ⟨rfl, htail⟩ := List.cons.inj h
      exact ⟨rfl, htail⟩
    | directive h' d => exact absurd (List.cons.inj h).1 hp.2
  | directive h₁ c =>
    cases q with
    | lit d => exact absurd (List.cons.inj h).1.symm hq.2
    | directive h₂ d =>
      have htail : (h₁.chars ++ [c]) ++ r = (h₂.chars ++ [d]) ++ r' := (List.cons.inj h).2
      rw [List.append_assoc, List.append_assoc] at htail
      obtain ⟨rfl, rfl, hrest⟩ := hp.2.1.unique hq.2.1 hp.2.2 hq.2.2 htail
      exact ⟨rfl, hrest⟩

theorem Piece.Wf.chars_ne_broken {p : Piece} {broken : Option Header} (hp : p.Wf)
    (hb : ∀ h, broken = some h → h.Wf) (r : List (BitVec 8)) :
    p.chars ++ r ≠ brokenChars broken := by
  intro heq
  cases broken with
  | none =>
    cases p with
    | lit c => cases heq
    | directive h c => cases heq
  | some h =>
    cases p with
    | lit c => exact hp.2 (List.cons.inj heq).1
    | directive h' c =>
      have hinner : (h'.chars ++ [c]) ++ r = h.chars := (List.cons.inj heq).2
      have htail : h'.chars ++ c :: (r ++ [0]) = h.chars ++ 0 :: [] := by
        rw [← hinner, List.append_assoc, List.append_assoc]
        rfl
      have hend := hp.2.1.unique (hb h rfl) hp.2.2 h.not_continues_nul htail
      exact hp.1 hend.2.1

theorem brokenChars_inj {o o' : Option Header} (ho : ∀ h, o = some h → h.Wf)
    (ho' : ∀ h, o' = some h → h.Wf) (heq : brokenChars o = brokenChars o') : o = o' := by
  cases o with
  | none =>
    cases o' with
    | none => rfl
    | some h => cases heq
  | some h =>
    cases o' with
    | none => cases heq
    | some h' =>
      have htail := congrArg (· ++ [0]) (List.cons.inj heq).2
      have hend := (ho h rfl).unique (ho' h' rfl) h.not_continues_nul h'.not_continues_nul htail
      rw [hend.1]

theorem Format.Wf.unique {f g : Format} (hf : f.Wf) (hg : g.Wf) (heq : f.chars = g.chars) :
    f = g := by
  obtain ⟨ps, o⟩ := f
  obtain ⟨qs, o'⟩ := g
  obtain ⟨hps, ho⟩ := hf
  obtain ⟨hqs, ho'⟩ := hg
  suffices hpieces : ps = qs ∧ brokenChars o = brokenChars o' by
    obtain ⟨rfl, hbroken⟩ := hpieces
    rw [Format.mk.injEq]
    exact ⟨rfl, brokenChars_inj ho ho' hbroken⟩
  dsimp only at hps hqs
  change render ps ++ brokenChars o = render qs ++ brokenChars o' at heq
  have hcons : ∀ (p : Piece) (ps : List Piece), render (p :: ps) = p.chars ++ render ps :=
    fun p ps => List.flatMap_cons
  induction ps generalizing qs with
  | nil =>
    cases qs with
    | nil => exact ⟨rfl, heq⟩
    | cons q qs =>
      rw [hcons, List.append_assoc] at heq
      have hq := hqs q List.mem_cons_self
      exact absurd heq.symm (hq.chars_ne_broken ho _)
  | cons p ps ih =>
    have hp := hps p List.mem_cons_self
    rw [hcons, List.append_assoc] at heq
    cases qs with
    | nil => exact absurd heq (hp.chars_ne_broken ho' _)
    | cons q qs =>
      rw [hcons, List.append_assoc] at heq
      obtain ⟨rfl, hrest⟩ := hp.unique (hqs q List.mem_cons_self) heq
      obtain ⟨rfl, hend⟩ := ih qs (List.forall_mem_cons.1 hps).2 ho
        (List.forall_mem_cons.1 hqs).2 ho' hrest
      exact ⟨rfl, hend⟩

theorem Format.exists_cons {p : Piece} (hp : p.Wf) (h : ∃ f : Format, f.Wf ∧ f.chars = rest) :
    ∃ f : Format, f.Wf ∧ f.chars = p.chars ++ rest := by
  obtain ⟨f, hf, rfl⟩ := h
  refine ⟨⟨p :: f.pieces, f.broken⟩, ⟨List.forall_mem_cons.2 ⟨hp, hf.pieces⟩, hf.broken⟩, ?_⟩
  rw [Format.chars, Format.chars, render, List.flatMap_cons, List.append_assoc]
  rfl

/-- Every string can be read as a format. -/
theorem Format.exists_chars_eq {s : List (BitVec 8)} (hs : 0 ∉ s) :
    ∃ f : Format, f.Wf ∧ f.chars = s := by
  induction hn : s.length using Nat.strongRecOn generalizing s with
  | _ n ih =>
    subst hn
    cases s with
    | nil =>
      refine ⟨⟨[], none⟩, ⟨List.forall_mem_nil _, fun h hnone => ?_⟩, rfl⟩
      exact (Option.some_ne_none _ hnone.symm).elim
    | cons c s =>
      have h0 : c ≠ 0 := (List.ne_of_not_mem_cons hs).symm
      have hrest := List.not_mem_of_not_mem_cons hs
      by_cases hc : c = ch '%'
      · subst hc
        have hmem : 0 ∈ s ++ [0] := List.mem_append_right _ (List.mem_singleton_self _)
        obtain ⟨h, d, rest, hformat, hw, hd⟩ := exists_header hmem
        obtain rfl | ⟨rest, e, rfl⟩ := List.eq_nil_or_concat rest
        · obtain rfl : s = h.chars := (List.append_inj' hformat rfl).1
          refine ⟨⟨[], some h⟩, ⟨List.forall_mem_nil _, fun h' heq => ?_⟩, rfl⟩
          cases heq
          exact hw
        · have hconcat : s ++ [0] = (h.chars ++ d :: rest) ++ [e] := by
            rw [hformat, List.concat_eq_append, List.append_assoc, List.cons_append]
          obtain rfl : s = h.chars ++ d :: rest := (List.append_inj' hconcat rfl).1
          have htail : 0 ∉ d :: rest := fun hmem => hrest (List.mem_append_right _ hmem)
          have htail' := List.not_mem_of_not_mem_cons htail
          have hwf : (Piece.directive h d).Wf := ⟨(List.ne_of_not_mem_cons htail).symm, hw, hd⟩
          have hlt : rest.length < (ch '%' :: (h.chars ++ d :: rest)).length := by
            rw [List.length_cons, List.length_append, List.length_cons]
            omega
          have hread := Format.exists_cons hwf (ih rest.length hlt htail' rfl)
          rw [Piece.chars, List.cons_append, List.append_assoc] at hread
          exact hread
      · have hwf : (Piece.lit c).Wf := ⟨h0, hc⟩
        exact Format.exists_cons hwf (ih s.length (Nat.lt_succ_self _) hrest rfl)

theorem Format.Wf.text_eq {f : Format} (hf : f.Wf) (rest : List (BitVec 8)) (va : List Arg) :
    Printf.text (f.chars ++ 0 :: rest) va = f.text rest va := by
  obtain ⟨ps, o⟩ := f
  cases o with
  | none =>
    have hchars : (Format.mk ps none).chars ++ 0 :: rest = render ps ++ 0 :: rest := by
      rw [Format.chars, brokenChars, List.append_nil]
    rw [hchars, text_render hf.pieces]
    rfl
  | some h =>
    have hchars : (Format.mk ps (some h)).chars ++ 0 :: rest =
        render ps ++ ch '%' :: (h.chars ++ 0 :: rest) := by
      rw [Format.chars, brokenChars, List.append_assoc]
      rfl
    rw [hchars, text_render hf.pieces]
    apply bind_congr
    intro va'
    exact text_directive (hf.broken h rfl) h.not_continues_nul rest va'

end Reading

/-- A string that is a format has one reading, and `_vsnprintf` prints what the reading says,
through any output function and whatever comes after the terminator. -/
theorem existsUnique_format {s : List (BitVec 8)} (hs : 0 ∉ s) :
    ∃! f : Format, f.Wf ∧ f.chars = s ∧
      ∀ (β : Type) (out : OutFct β) (maxlen : Nat) (cursor : Cursor β) (rest : List (BitVec 8))
        (va : List Arg),
        vsnprintfLoop out maxlen ((s ++ 0 :: rest).length + 1) cursor (s ++ 0 :: rest) va =
          (feed (put out maxlen) (f.text rest va) cursor).map Prod.fst := by
  obtain ⟨f, hf, rfl⟩ := Format.exists_chars_eq hs
  refine ⟨f, ⟨hf, rfl, fun β out maxlen cursor rest va => ?_⟩, fun g hg => hg.1.unique hf hg.2.1⟩
  rw [vsnprintfLoop_eq, loopText_eq (Nat.lt_succ_self _), hf.text_eq]

theorem existsUnique_format_number :
    ∃! f : Format, f.Wf ∧ f.chars = literal "%5d" ∧
      ∀ (β : Type) (out : OutFct β) (maxlen : Nat) (cursor : Cursor β) (rest : List (BitVec 8))
        (va : List Arg),
        vsnprintfLoop out maxlen ((literal "%5d" ++ 0 :: rest).length + 1) cursor
            (literal "%5d" ++ 0 :: rest) va =
          (feed (put out maxlen) (f.text rest va) cursor).map Prod.fst :=
  existsUnique_format (by decide)

end AdaOS.Printf
