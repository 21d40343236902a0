import AdaOS.Shell

namespace AdaOS
set_option autoImplicit true

/-- What is left of the characters typed when each backspace deletes the last one that is there. -/
def editLine (typed : List (BitVec 8)) : List (BitVec 8) :=
  typed.foldl (fun chars b => if b = backspace then chars.dropLast else chars ++ [b]) []

/-- The characters since the last carriage return; before the first one nothing counts. -/
def lineTyped (bytes : List (BitVec 8)) : List (BitVec 8) :=
  if carriageReturn ∈ bytes then bytes.rtakeWhile (· != carriageReturn) else []

def edited (bytes : List (BitVec 8)) : List (BitVec 8) := editLine (lineTyped bytes)

theorem editLine_concat (typed : List (BitVec 8)) (b : BitVec 8) :
    editLine (typed ++ [b]) =
      if b = backspace then (editLine typed).dropLast else editLine typed ++ [b] := by
  rw [editLine, List.foldl_append]
  rfl

theorem lineTyped_concat_return (bytes : List (BitVec 8)) :
    lineTyped (bytes ++ [carriageReturn]) = [] := by
  have hm : carriageReturn ∈ bytes ++ [carriageReturn] := List.mem_append_right _ List.mem_cons_self
  rw [lineTyped, if_pos hm, List.rtakeWhile_concat_neg]
  simp

theorem lineTyped_concat (hr : carriageReturn ∈ bytes) (hb : b ≠ carriageReturn) :
    lineTyped (bytes ++ [b]) = lineTyped bytes ++ [b] := by
  rw [lineTyped, lineTyped, if_pos hr, if_pos (List.mem_append_left _ hr),
    List.rtakeWhile_concat_pos]
  exact bne_iff_ne.2 hb

theorem edited_concat_return (bytes : List (BitVec 8)) :
    edited (bytes ++ [carriageReturn]) = [] := by
  rw [edited, lineTyped_concat_return]
  rfl

theorem edited_of_idle (h : carriageReturn ∉ bytes) : edited bytes = [] := by
  rw [edited, lineTyped, if_neg h]
  rfl

theorem edited_concat (hr : carriageReturn ∈ bytes) (hb : b ≠ carriageReturn) :
    edited (bytes ++ [b]) =
      if b = backspace then (edited bytes).dropLast else edited bytes ++ [b] := by
  rw [edited, lineTyped_concat hr hb, editLine_concat]
  rfl

theorem edited_length_le (bytes : List (BitVec 8)) : (edited bytes).length ≤ bytes.length := by
  induction bytes using List.reverseRecOn with
  | nil => exact Nat.le_refl 0
  | append_singleton bytes b ih =>
    rw [List.length_append]
    by_cases hb : b = carriageReturn
    · rw [hb, edited_concat_return]
      exact Nat.zero_le _
    · by_cases hr : carriageReturn ∈ bytes
      · rw [edited_concat hr hb]
        split
        · rw [List.length_dropLast]
          omega
        · rw [List.length_append]
          exact Nat.add_le_add_right ih 1
      · have hn : carriageReturn ∉ bytes ++ [b] := by
          intro hm
          rcases List.mem_append.1 hm with hm | hm
          · exact hr hm
          · exact hb (List.mem_singleton.1 hm).symm
        rw [edited_of_idle hn]
        exact Nat.zero_le _

/-- The buffer shows the line below the index; only the slot at the index may be stale. -/
structure Shell.Holds (s : Shell) (chars : List (BitVec 8)) : Prop where
  index : s.bufferIndex.toNat = chars.length
  typed : ∀ i < chars.length, s.lineBuffer[i]? = chars[i]?
  clean : ∀ i, chars.length < i → i < 255 → s.lineBuffer[i]? = some 0

/-- The buffer is the line and zeros. -/
structure Shell.Exact (s : Shell) (chars : List (BitVec 8)) : Prop where
  index : s.bufferIndex.toNat = chars.length
  contents : s.lineBuffer.toList = chars ++ List.replicate (255 - chars.length) 0

variable {s s' : Shell} {chars bytes pre : List (BitVec 8)}

theorem Shell.Holds.length_le (h : s.Holds chars) : chars.length ≤ 255 := by
  have hlt := s.bufferIndex.isLt
  rw [h.index] at hlt
  exact Nat.le_of_lt_succ hlt

theorem Shell.Exact.holds (h : s.Exact chars) : s.Holds chars := by
  have hget (i : Nat) :
      s.lineBuffer[i]? = (chars ++ List.replicate (255 - chars.length) 0)[i]? := by
    rw [← h.contents, Vector.getElem?_toList]
  constructor
  · exact h.index
  · intro i hi
    rw [hget, List.getElem?_append_left hi]
  · intro i hi hlt
    rw [hget, List.getElem?_append_right (Nat.le_of_lt hi), List.getElem?_replicate,
      if_pos (by omega)]

theorem Shell.store_of_lt (s : Shell) (byte : BitVec 8) (h : index < 255) :
    s.store index byte = .ok { s with lineBuffer := s.lineBuffer.set index byte h } := dif_pos h

theorem Shell.store_of_le (s : Shell) (byte : BitVec 8) (h : 255 ≤ index) :
    s.store index byte = .error .outOfBounds := dif_neg (Nat.not_lt.2 h)

/-- A byte stored at the index overwrites the slot that may be stale. -/
theorem Shell.Holds.exact_of_store (h : s.Holds chars) (hl : chars.length < 255) (b : BitVec 8)
    (hi : s'.bufferIndex = s.bufferIndex + 1)
    (hb : s'.lineBuffer = s.lineBuffer.set chars.length b hl) : s'.Exact (chars ++ [b]) := by
  constructor
  · have hx := h.index
    rw [hi, BitVec.toNat_add, hx, List.length_append]
    exact Nat.mod_eq_of_lt (Nat.succ_lt_succ hl)
  · apply List.ext_getElem?
    intro i
    rw [Vector.getElem?_toList, hb, Vector.getElem?_set, List.append_assoc]
    rcases Nat.lt_trichotomy i chars.length with hlt | rfl | hgt
    · rw [if_neg (Nat.ne_of_gt hlt), h.typed i hlt, List.getElem?_append_left hlt]
    · rw [if_pos rfl, List.getElem?_append_right (Nat.le_refl _), Nat.sub_self]
      rfl
    · obtain ⟨k, rfl⟩ := Nat.exists_eq_add_of_lt hgt
      rw [if_neg (Nat.ne_of_lt hgt), List.getElem?_append_right (by omega),
        show chars.length + k + 1 - chars.length = k + 1 by omega]
      change _ = (List.replicate _ 0)[k]?
      rw [List.getElem?_replicate, List.length_append]
      by_cases hk : chars.length + k + 1 < 255
      · rw [h.clean _ hgt hk, if_pos (by change k < 255 - (chars.length + 1); omega)]
      · rw [if_neg (by change ¬ k < 255 - (chars.length + 1); omega)]
        exact Vector.getElem?_eq_none (Nat.not_lt.1 hk)

theorem Shell.Holds.backspaced (h : s.Holds chars) (hn : chars ≠ []) (hl : chars.length < 255)
    (hi : s'.bufferIndex = s.bufferIndex - 1)
    (hb : s'.lineBuffer = s.lineBuffer.set chars.length 0 hl) : s'.Holds chars.dropLast := by
  have hp : 0 < chars.length := List.length_pos_iff.2 hn
  constructor
  · rw [hi, List.length_dropLast, BitVec.toNat_sub, h.index]
    change (255 + chars.length) % 256 = chars.length - 1
    omega
  · intro i hlt
    rw [List.length_dropLast] at hlt
    rw [hb, Vector.getElem?_set, if_neg (by omega), h.typed i (by omega),
      List.getElem?_dropLast, if_pos hlt]
  · intro i hgt hlt
    rw [List.length_dropLast] at hgt
    rw [hb, Vector.getElem?_set]
    split
    · rfl
    · exact h.clean i (by omega) hlt

theorem Shell.memset_spec (n : Nat) (h : index + n ≤ 255) :
    ∃ buf, s.memset index n = .ok { s with lineBuffer := buf } ∧
      ∀ i, buf[i]? = if index ≤ i ∧ i < index + n then some 0 else s.lineBuffer[i]? := by
  induction n generalizing s index with
  | zero =>
    exact ⟨s.lineBuffer, rfl, fun i => (if_neg (by omega)).symm⟩
  | succ n ih =>
    have hlt : index < 255 := by omega
    obtain ⟨buf, he, hb⟩ := ih (s := { s with lineBuffer := s.lineBuffer.set index 0 hlt })
      (show index + 1 + n ≤ 255 by omega)
    refine ⟨buf, ?_, ?_⟩
    · rw [Shell.memset, Shell.store_of_lt s 0 hlt]
      exact he
    · intro i
      rw [hb i, Vector.getElem?_set]
      by_cases hi : index = i
      · rw [if_neg (by omega), if_pos hi, if_pos (by omega)]
      · rw [if_neg hi]
        congr 1
        rw [eq_iff_iff]
        omega

/-- The buffers that the command tests of a run have read, newest first. -/
def Shell.linesTested (s : Shell) : List (List (BitVec 8)) :=
  s.trace.filterMap fun e => match e with
    | .tested chars => some chars.toList
    | _ => none

theorem Shell.linesTested_echo (s : Shell) (byte : BitVec 8) :
    (s.echo byte).linesTested = s.linesTested := by
  rw [Shell.echo]
  split <;> rfl

theorem Shell.echo_lineBuffer (s : Shell) (byte : BitVec 8) :
    (s.echo byte).lineBuffer = s.lineBuffer := by
  rw [Shell.echo]
  split <;> rfl

theorem Shell.echo_bufferIndex (s : Shell) (byte : BitVec 8) :
    (s.echo byte).bufferIndex = s.bufferIndex := by
  rw [Shell.echo]
  split <;> rfl

theorem Shell.echo_terminalRunning (s : Shell) (byte : BitVec 8) :
    (s.echo byte).terminalRunning = s.terminalRunning := by
  rw [Shell.echo]
  split <;> rfl

theorem Shell.answer_spec (s : Shell) :
    ∃ trace, s.answer = { s with trace := trace } ∧
      s.answer.linesTested = s.lineBuffer.toList :: s.linesTested := by
  rw [Shell.answer]
  split
  · exact ⟨_, rfl, rfl⟩
  · split
    · exact ⟨_, rfl, rfl⟩
    · exact ⟨_, rfl, rfl⟩

theorem Shell.Exact.enter (h : s.Exact chars) :
    ∃ s', s.enter = .ok s' ∧ s'.terminalRunning = true ∧ s'.Exact [] ∧
      s'.linesTested = s.lineBuffer.toList :: s.linesTested := by
  obtain ⟨trace, ha, ht⟩ := s.answer_spec
  have hl := h.holds.length_le
  have hfit : 0 + chars.length ≤ 255 := (Nat.zero_add _).symm ▸ hl
  obtain ⟨buf, hm, hb⟩ := Shell.memset_spec (s := s.answer) chars.length hfit
  have hs : s.answer.lineBuffer = s.lineBuffer := by rw [ha]
  refine ⟨{ ({ s.answer with lineBuffer := buf } : Shell).log (.printed prompt) with
    bufferIndex := 0, terminalRunning := true }, ?_, rfl, ⟨rfl, ?_⟩, ht⟩
  · rw [Shell.enter, h.index, hm]
    rfl
  · apply List.ext_getElem?
    intro i
    rw [Vector.getElem?_toList]
    change buf[i]? = (List.replicate 255 0)[i]?
    rw [hb i, hs, ← Vector.getElem?_toList, h.contents, List.getElem?_replicate]
    by_cases hi : i < chars.length
    · rw [if_pos ⟨Nat.zero_le i, by omega⟩, if_pos (by omega)]
    · rw [if_neg (by omega), List.getElem?_append_right (by omega), List.getElem?_replicate]
      congr 1
      rw [eq_iff_iff]
      omega

/-- The state after the handler has taken these bytes one by one. -/
structure Shell.After (s : Shell) (bytes : List (BitVec 8)) : Prop where
  running : s.terminalRunning = decide (carriageReturn ∈ bytes)
  holds : s.Holds (edited bytes)

theorem Shell.boot_after : Shell.boot.After [] := by
  have he : Shell.boot.Exact [] := ⟨rfl, rfl⟩
  exact ⟨rfl, he.holds⟩

theorem Shell.Holds.echo (h : s.Holds chars) (byte : BitVec 8) : (s.echo byte).Holds chars := by
  have hb := s.echo_lineBuffer byte
  have hi := s.echo_bufferIndex byte
  constructor
  · rw [hi]
    exact h.index
  · rw [hb]
    exact h.typed
  · rw [hb]
    exact h.clean

theorem Shell.After.enter (h : s.After bytes) (hl : (edited bytes).length < 255) :
    ∃ s', rs232Irq s carriageReturn = .ok s' ∧ s'.After (bytes ++ [carriageReturn]) ∧
      s'.Exact [] ∧ s'.linesTested = (edited bytes ++ carriageReturn ::
        List.replicate (254 - (edited bytes).length) 0) :: s.linesTested := by
  have hh := h.holds.echo carriageReturn
  have hx : Shell.Exact { s.echo carriageReturn with
      lineBuffer := (s.echo carriageReturn).lineBuffer.set (edited bytes).length carriageReturn hl
      bufferIndex := (s.echo carriageReturn).bufferIndex + 1 } (edited bytes ++ [carriageReturn]) :=
    hh.exact_of_store hl carriageReturn rfl rfl
  obtain ⟨s', he, hr, hz, ht⟩ := hx.enter
  refine ⟨s', ?_, ⟨?_, ?_⟩, hz, ?_⟩
  · rw [rs232Irq, if_neg (fun hc => hc.1 rfl), if_neg (by decide), h.holds.index,
      Shell.store_of_lt _ _ hl]
    exact he
  · rw [hr, decide_eq_true (List.mem_append_right _ List.mem_cons_self)]
  · rw [edited_concat_return]
    exact hz.holds
  · have hn : 255 - (edited bytes ++ [carriageReturn]).length = 254 - (edited bytes).length := by
      rw [List.length_append, List.length_singleton, Nat.sub_add_eq]
      omega
    rw [ht, hx.contents, hn, List.append_assoc, ← s.linesTested_echo carriageReturn]
    rfl

/-- A byte that does not end the line, on the running terminal. -/
theorem Shell.Holds.character (h : s.Holds chars) (hr : s.terminalRunning = true)
    (hl : chars.length < 255) (hc : b ≠ carriageReturn) :
    ∃ s', rs232Irq s b = .ok s' ∧ s'.terminalRunning = s.terminalRunning ∧
      s'.Holds (if b = backspace then chars.dropLast else chars ++ [b]) := by
  have ht : ¬ (b ≠ carriageReturn ∧ ¬ s.terminalRunning) := fun hn => hn.2 hr
  have hh := h.echo b
  rw [rs232Irq, if_neg ht]
  by_cases hb : b = backspace
  · rw [if_pos hb, if_pos hb]
    by_cases hz : s.bufferIndex = 0
    · have hn : chars = [] := by
        rw [← List.length_eq_zero_iff, ← h.index, hz]
        rfl
      have hd : chars.dropLast = chars := by
        rw [hn]
        rfl
      rw [if_pos hz, hd]
      exact ⟨s, rfl, rfl, h⟩
    · have hn : chars ≠ [] := by
        intro hn
        apply hz
        apply BitVec.eq_of_toNat_eq
        rw [h.index, hn]
        rfl
      rw [if_neg hz, h.index, Shell.store_of_lt _ _ hl]
      exact ⟨_, rfl, s.echo_terminalRunning b, hh.backspaced hn hl rfl rfl⟩
  · rw [if_neg hb, if_neg hb, h.index, Shell.store_of_lt _ _ hl, bind_of_ok rfl, if_neg hc]
    exact ⟨_, rfl, s.echo_terminalRunning b, (hh.exact_of_store hl b rfl rfl).holds⟩

/-- A byte below the edge keeps the buffer and the edited line together. -/
theorem Shell.After.step (h : s.After bytes) (hl : (edited bytes).length < 255) (b : BitVec 8) :
    ∃ s', rs232Irq s b = .ok s' ∧ s'.After (bytes ++ [b]) := by
  by_cases hc : b = carriageReturn
  · obtain ⟨s', he, ha, _⟩ := h.enter hl
    rw [hc]
    exact ⟨s', he, ha⟩
  · have hmem : carriageReturn ∈ bytes ++ [b] ↔ carriageReturn ∈ bytes := by
      rw [List.mem_append, List.mem_singleton]
      exact ⟨fun hm => hm.resolve_right (Ne.symm hc), .inl⟩
    have hrun (s' : Shell) (hs : s'.terminalRunning = s.terminalRunning) :
        s'.terminalRunning = decide (carriageReturn ∈ bytes ++ [b]) := by
      rw [hs, h.running, decide_eq_decide, hmem]
    by_cases hr : carriageReturn ∈ bytes
    · have ht : s.terminalRunning = true := by
        rw [h.running]
        exact decide_eq_true hr
      obtain ⟨s', he, hs, hh⟩ := h.holds.character ht hl hc
      refine ⟨s', he, hrun s' hs, ?_⟩
      rw [edited_concat hr hc]
      exact hh
    · have ht : b ≠ carriageReturn ∧ ¬ s.terminalRunning := by
        rw [h.running]
        exact ⟨hc, fun hn => hr (of_decide_eq_true hn)⟩
      refine ⟨s, ?_, hrun s rfl, ?_⟩
      · rw [rs232Irq, if_pos ht]
      · rw [edited_of_idle (mt hmem.1 hr)]
        exact edited_of_idle hr ▸ h.holds

theorem Shell.After.overrun (h : s.After bytes) (hl : (edited bytes).length = 255) (b : BitVec 8) :
    rs232Irq s b = .error .outOfBounds := by
  have hr : carriageReturn ∈ bytes := by
    by_contra hn
    rw [edited_of_idle hn] at hl
    cases hl
  have ht : ¬ (b ≠ carriageReturn ∧ ¬ s.terminalRunning) := by
    rw [h.running]
    exact fun hn => hn.2 (decide_eq_true hr)
  have hi := h.holds.index
  have hz : s.bufferIndex ≠ 0 := by
    intro hz
    rw [hz, hl] at hi
    cases hi
  rw [rs232Irq, if_neg ht]
  by_cases hb : b = backspace
  · rw [if_pos hb, if_neg hz, hi, Shell.store_of_le _ _ (Nat.le_of_eq hl.symm)]
    rfl
  · rw [if_neg hb, hi, Shell.store_of_le _ _ (Nat.le_of_eq hl.symm)]
    rfl

theorem Shell.run_concat (s : Shell) (bytes : List (BitVec 8)) (b : BitVec 8) :
    s.run (bytes ++ [b]) = s.run bytes >>= fun s => rs232Irq s b := by
  rw [Shell.run, List.foldlM_append]
  simp only [List.foldlM_cons, List.foldlM_nil, bind_pure]
  rfl

/-- No byte reaches the handler while the line being edited fills the buffer. -/
def LinesFit (bytes : List (BitVec 8)) : Prop :=
  ∀ p b, p ++ [b] <+: bytes → (edited p).length < 255

theorem LinesFit.of_concat (h : LinesFit (bytes ++ [b])) : LinesFit bytes :=
  fun p b' hp => h p b' (hp.trans (List.prefix_append _ _))

theorem LinesFit.run (h : LinesFit bytes) : ∃ s, Shell.boot.run bytes = .ok s ∧ s.After bytes := by
  induction bytes using List.reverseRecOn with
  | nil => exact ⟨Shell.boot, rfl, Shell.boot_after⟩
  | append_singleton bytes b ih =>
    obtain ⟨s, hs, ha⟩ := ih h.of_concat
    obtain ⟨s', hs', ha'⟩ := ha.step (h bytes b (List.prefix_refl _)) b
    refine ⟨s', ?_, ha'⟩
    rw [Shell.run_concat, bind_of_ok hs]
    exact hs'

theorem LinesFit.of_run (h : Shell.boot.run bytes = .ok s) : LinesFit bytes := by
  induction bytes using List.reverseRecOn generalizing s with
  | nil =>
    intro p b hp
    have hn := congrArg List.length (List.prefix_nil.1 hp)
    rw [List.length_append] at hn
    cases hn
  | append_singleton bytes b ih =>
    intro p b' hp
    rw [Shell.run_concat] at h
    obtain ⟨s₀, hs, hb⟩ := bind_ok h
    have hf := ih hs
    rcases List.prefix_concat_iff.1 hp with he | hp
    · obtain ⟨rfl, -⟩ := List.append_inj' he rfl
      obtain ⟨s₁, hs₁, ha⟩ := hf.run
      cases hs.symm.trans hs₁
      by_contra hn
      have hl : (edited p).length = 255 := Nat.le_antisymm ha.holds.length_le (Nat.not_lt.1 hn)
      cases (ha.overrun hl b).symm.trans hb
    · exact hf p b' hp

/-- Every write to the buffer, `memset`'s included, is inside it just when every line fits. -/
theorem Shell.run_inBounds_iff (bytes : List (BitVec 8)) :
    (∃ s, Shell.boot.run bytes = .ok s) ↔ LinesFit bytes := by
  constructor
  · rintro ⟨s, hs⟩
    exact LinesFit.of_run hs
  · intro h
    obtain ⟨s, hs, _⟩ := h.run
    exact ⟨s, hs⟩

theorem edited_replicate (n : Nat) :
    edited (carriageReturn :: List.replicate n 0x61) = List.replicate n 0x61 := by
  induction n with
  | zero => rfl
  | succ n ih =>
    rw [List.replicate_succ', ← List.cons_append, edited_concat List.mem_cons_self (by decide), ih,
      if_neg (by decide)]

/-- Of a line of 256 characters the last is written behind the buffer. -/
theorem Shell.run_overrun :
    ¬ ∃ s, Shell.boot.run (carriageReturn :: List.replicate 256 0x61) = .ok s := by
  rintro ⟨s, hs⟩
  have he : carriageReturn :: List.replicate 256 0x61 =
      carriageReturn :: List.replicate 255 0x61 ++ [0x61] :=
    congrArg (List.cons carriageReturn) List.replicate_succ'
  rw [he] at hs
  have hf := LinesFit.of_run hs _ _ (List.prefix_refl _)
  rw [edited_replicate, List.length_replicate] at hf
  exact Nat.lt_irrefl 255 hf

theorem linesFit_of_le (h : ∀ p, p <+: bytes → (edited p).length ≤ 253) : LinesFit bytes := by
  intro p b hp
  exact Nat.lt_of_le_of_lt (h p ((List.prefix_append p [b]).trans hp)) (by decide)

/-- The tests read the edited line, the carriage return and zeros; nothing of it is left behind. -/
theorem Shell.tests_edited_line (h : ∀ p, p <+: bytes → (edited p).length ≤ 253)
    (hp : pre ++ [carriageReturn] <+: bytes) :
    ∃ s s', Shell.boot.run pre = .ok s ∧ rs232Irq s carriageReturn = .ok s' ∧
      (s.terminalRunning → s'.linesTested = (edited pre ++ carriageReturn ::
        List.replicate (254 - (edited pre).length) 0) :: s.linesTested) ∧
      s'.lineBuffer = Vector.replicate 255 0 ∧ s'.bufferIndex = 0 := by
  have hpre : pre <+: bytes := (List.prefix_append pre [carriageReturn]).trans hp
  have hf : LinesFit pre := linesFit_of_le fun p hp => h p (hp.trans hpre)
  obtain ⟨s, hs, ha⟩ := hf.run
  obtain ⟨s', he, _, hz, ht⟩ := ha.enter (Nat.lt_of_le_of_lt (h pre hpre) (by decide))
  refine ⟨s, s', hs, he, fun _ => ht, Vector.toList_inj.1 hz.contents, ?_⟩
  exact BitVec.eq_of_toNat_eq hz.index

/-- An `x` before the shell runs, then `free` typed over a slip. -/
def sampleBytes : List (BitVec 8) :=
  [0x78, 0x0d, 0x66, 0x72, 0x78, 0x78, 0x08, 0x08, 0x65, 0x65, 0x0d]

theorem Shell.tests_edited_line_sample :
    ∃ s s', Shell.boot.run [0x78, 0x0d, 0x66, 0x72, 0x78, 0x78, 0x08, 0x08, 0x65, 0x65] = .ok s ∧
      rs232Irq s carriageReturn = .ok s' ∧
      (s.terminalRunning → s'.linesTested = ([0x66, 0x72, 0x65, 0x65] ++ carriageReturn ::
        List.replicate 250 0) :: s.linesTested) ∧
      s'.lineBuffer = Vector.replicate 255 0 ∧ s'.bufferIndex = 0 := by
  have hfits : ∀ p, p <+: sampleBytes → (edited p).length ≤ 253 := by
    intro p hp
    exact (edited_length_le p).trans (hp.length_le.trans (by decide))
  exact Shell.tests_edited_line hfits (List.prefix_refl _)

end AdaOS
