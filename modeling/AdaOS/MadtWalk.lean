import AdaOS.Madt

namespace AdaOS
set_option autoImplicit true
open ByteMem

/-- The index the record at the loop's offset gets. -/
def Madt.index (t : Mem) (w : Madt) : Nat := if w.lastType ≠ t w.offset then 0 else w.i

variable {t : Mem} {w : Madt}

theorem Madt.switch_offset (w : Madt) (t : Mem) (type : BitVec 8) :
    (w.switch t type).offset = w.offset := by
  rw [Madt.switch]
  split <;> rfl

theorem Madt.switch_lastType (w : Madt) (t : Mem) (type : BitVec 8) :
    (w.switch t type).lastType = w.lastType := by
  rw [Madt.switch]
  split <;> rfl

theorem Madt.switch_i (w : Madt) (t : Mem) (type : BitVec 8) : (w.switch t type).i = w.i := by
  rw [Madt.switch]
  split <;> rfl

theorem madtRecord_offset (t : Mem) (w : Madt) :
    (madtRecord t w).offset = w.offset + (t (w.offset + 1)).toNat :=
  congrArg (· + (t (w.offset + 1)).toNat) (Madt.switch_offset _ t _)

theorem madtRecord_lastType (t : Mem) (w : Madt) : (madtRecord t w).lastType = t w.offset :=
  Madt.switch_lastType _ t _

theorem madtRecord_i (t : Mem) (w : Madt) : (madtRecord t w).i = w.index t + 1 :=
  congrArg (· + 1) (Madt.switch_i _ t _)

def recordAccesses (t : Mem) (offset index : Nat) : List MadtAccess :=
  match madtArray (t offset) with
  | some array => [.store array index, .payload offset array, .header offset]
  | none => [.typeString (t offset), .header offset]

theorem madtRecord_accesses (t : Mem) (w : Madt) :
    (madtRecord t w).accesses = recordAccesses t w.offset (w.index t) ++ w.accesses := by
  change ((w.enter (t w.offset)).switch t (t w.offset)).accesses = _
  rw [Madt.switch, recordAccesses]
  cases madtArray (t w.offset) <;> rfl

theorem madtLoop_add (t : Mem) (n m : Nat) (w : Madt) :
    madtLoop t (n + m) w = madtLoop t m (madtLoop t n w) := by
  induction n generalizing w with
  | zero => rw [Nat.zero_add]; rfl
  | succ n ih =>
    rw [Nat.add_right_comm, madtLoop, madtLoop]
    split
    · exact ih _
    · cases m with
      | zero => rfl
      | succ m => rw [madtLoop, if_neg ‹_›]

theorem madtLoop_of_done (n : Nat) (h : sdtLength t ≤ w.offset) : madtLoop t n w = w := by
  cases n with
  | zero => rfl
  | succ n => rw [madtLoop, if_neg (Nat.not_lt.2 h)]

theorem madtLoop_one (h : w.offset < sdtLength t) : madtLoop t 1 w = madtRecord t w := by
  rw [madtLoop, if_pos h]
  rfl

/-- The records that a walk over the table meets: the offset of each, and how many of its type
stand directly before it. -/
inductive RecordAt (t : Mem) : Nat → Nat → Prop
  | first : madtRecordOffset < sdtLength t → RecordAt t madtRecordOffset 0
  | next : RecordAt t o i → o + (t (o + 1)).toNat < sdtLength t →
      RecordAt t (o + (t (o + 1)).toNat) (if t o ≠ t (o + (t (o + 1)).toNat) then 0 else i + 1)

theorem RecordAt.lt (h : RecordAt t o i) : o < sdtLength t := by
  cases h with
  | first h => exact h
  | next _ h => exact h

/-- The loop stands at the end or at one of these records. -/
def Madt.OnTrack (w : Madt) (t : Mem) : Prop :=
  w.offset < sdtLength t → RecordAt t w.offset (w.index t)

theorem Madt.start_onTrack (t : Mem) (old : MadtArray → Nat → List (BitVec 8))
    (lastType : BitVec 8) : (Madt.start old lastType).OnTrack t := by
  intro h
  have hi : (Madt.start old lastType).index t = 0 := ite_self 0
  rw [hi]
  exact .first h

theorem Madt.OnTrack.record (h : w.OnTrack t) (hw : w.offset < sdtLength t) :
    (madtRecord t w).OnTrack t := by
  intro hn
  rw [Madt.index, madtRecord_lastType, madtRecord_i]
  rw [madtRecord_offset] at hn ⊢
  exact .next (h hw) hn

variable {old : MadtArray → Nat → List (BitVec 8)} {lastType : BitVec 8}

theorem RecordAt.reached (h : RecordAt t o i) (old : MadtArray → Nat → List (BitVec 8))
    (lastType : BitVec 8) :
    ∃ n, (madtLoop t n (Madt.start old lastType)).offset = o ∧
      (madtLoop t n (Madt.start old lastType)).index t = i := by
  induction h with
  | first h => exact ⟨0, rfl, ite_self 0⟩
  | @next o i ho hn ih =>
    obtain ⟨n, hoff, hi⟩ := ih
    have hlt : (madtLoop t n (Madt.start old lastType)).offset < sdtLength t := by
      rw [hoff]
      exact ho.lt
    refine ⟨n + 1, ?_, ?_⟩
    · rw [madtLoop_add, madtLoop_one hlt, madtRecord_offset, hoff]
    · rw [madtLoop_add, madtLoop_one hlt, Madt.index, madtRecord_lastType, madtRecord_i,
        madtRecord_offset, hoff, hi]

theorem madtLoop_stuck (hz : t (w.offset + 1) = 0) (n : Nat) :
    (madtLoop t n w).offset = w.offset := by
  induction n generalizing w with
  | zero => rfl
  | succ n ih =>
    rw [madtLoop]
    split
    · have ho : (madtRecord t w).offset = w.offset := by
        rw [madtRecord_offset, hz]
        rfl
      rw [← ho] at hz
      exact (ih hz).trans ho
    · rfl

theorem RecordAt.stuck (h : RecordAt t o i) (hz : t (o + 1) = 0) (n : Nat) :
    (madtLoop t n (Madt.start old lastType)).offset < sdtLength t := by
  obtain ⟨m, ho, -⟩ := h.reached old lastType
  by_contra hn
  have hs := madtLoop_stuck (w := madtLoop t m (Madt.start old lastType))
    (by rw [ho]; exact hz) n
  rw [← madtLoop_add, Nat.add_comm, madtLoop_add, madtLoop_of_done m (Nat.not_lt.1 hn), ho] at hs
  exact hn (hs ▸ h.lt)

theorem Madt.OnTrack.progress (h : w.OnTrack t) (hz : ∀ o i, RecordAt t o i → t (o + 1) ≠ 0)
    (n : Nat) (hn : sdtLength t ≤ w.offset + n) : sdtLength t ≤ (madtLoop t n w).offset := by
  induction n generalizing w with
  | zero => exact hn
  | succ n ih =>
    rw [madtLoop]
    split
    · rename_i hlt
      have hpos : (t (w.offset + 1)).toNat ≠ 0 := by
        intro he
        exact hz _ _ (h hlt) (BitVec.eq_of_toNat_eq he)
      apply ih (h.record hlt)
      rw [madtRecord_offset]
      omega
    · exact Nat.not_lt.1 ‹_›

/-- The record loop of `parse_madt`, if it starts at all, comes to the end of the table just when
no record on its way has length zero. -/
theorem madtLoop_terminates_iff (t : Mem) (old : MadtArray → Nat → List (BitVec 8))
    (lastType : BitVec 8) :
    (madtFlags t ≠ 0 → ∃ n, sdtLength t ≤ (madtLoop t n (Madt.start old lastType)).offset) ↔
      (madtFlags t = 0 ∨ ∀ o i, RecordAt t o i → t (o + 1) ≠ 0) := by
  constructor
  · intro h
    by_cases hf : madtFlags t = 0
    · exact .inl hf
    · obtain ⟨n, hn⟩ := h hf
      right
      intro o i ho hz
      exact absurd (ho.stuck hz n) (Nat.not_lt.2 hn)
  · rintro (hf | hz) hn
    · exact absurd hf hn
    · exact ⟨sdtLength t, (Madt.start_onTrack t old lastType).progress hz _ (Nat.le_add_left _ _)⟩

theorem parseMadt_diverges_iff (t : Mem) (old : MadtArray → Nat → List (BitVec 8))
    (lastType : BitVec 8) :
    parseMadt t (Madt.start old lastType) = .error .diverges ↔
      madtFlags t ≠ 0 ∧ ∃ o i, RecordAt t o i ∧ t (o + 1) = 0 := by
  rw [parseMadt]
  by_cases hf : madtFlags t = 0
  · rw [if_pos hf]
    exact ⟨fun h => (nomatch h), fun h => absurd hf h.1⟩
  · rw [if_neg hf]
    constructor
    · intro h
      refine ⟨hf, ?_⟩
      by_contra hn
      have hz : ∀ o i, RecordAt t o i → t (o + 1) ≠ 0 := fun o i ho hz => hn ⟨o, i, ho, hz⟩
      have hend := (Madt.start_onTrack t old lastType).progress hz (sdtLength t)
        (Nat.le_add_left _ _)
      dsimp only at h
      rw [if_neg (Nat.not_lt.2 hend)] at h
      split at h <;> cases h
    · rintro ⟨-, o, i, ho, hz⟩
      exact if_pos (ho.stuck hz (sdtLength t))

/-- A table of fewer than 256 bytes with these records behind its fixed part. -/
def madtTable (checksum : BitVec 8) (records : List (BitVec 8)) : Mem := fun i =>
  ([0x41, 0x50, 0x49, 0x43, BitVec.ofNat 8 (44 + records.length), 0, 0, 0, 1, checksum] ++
    List.replicate 26 0 ++ [0, 0, 0xe0, 0xfe, 1, 0, 0, 0] ++ records).getD i 0

/-- A local APIC record whose length byte is zero. -/
def stuckTable : Mem := madtTable 0xd5 [0, 0]

theorem stuckTable_diverges : checksumHeader stuckTable = .ok () ∧
    ¬ (madtFlags stuckTable ≠ 0 →
      ∃ n, sdtLength stuckTable ≤
        (madtLoop stuckTable n (Madt.start (fun _ _ => []) 0)).offset) := by
  have hf : madtFlags stuckTable ≠ 0 := by decide
  refine ⟨by decide, fun h => ?_⟩
  obtain ⟨n, hn⟩ := h hf
  have hr : RecordAt stuckTable madtRecordOffset 0 := .first (by decide)
  exact absurd (hr.stuck (by decide) n) (Nat.not_lt.2 hn)

/-- `buffers` are the results of the `kmalloc(length)` calls, with `NULL` as 0. -/
def MadtAccess.InBounds (t : Mem) (buffers : MadtArray → Nat) : MadtAccess → Prop
  | .header offset => offset + 2 ≤ sdtLength t
  | .payload offset array => offset + 2 + array.size ≤ sdtLength t
  | .store array index => buffers array ≠ 0 ∧ (index + 1) * array.size ≤ sdtLength t
  | .typeString type => type.toNat < madtTypesToString.length

/-- A record of a known type ends inside the table and has room in its array behind the records
of its type directly before it; a record of another type is at least below 10. -/
def RecordFits (t : Mem) (buffers : MadtArray → Nat) (offset index : Nat) : Prop :=
  match madtArray (t offset) with
  | some array => buffers array ≠ 0 ∧ offset + 2 + array.size ≤ sdtLength t ∧
      (index + 1) * array.size ≤ sdtLength t
  | none => offset + 2 ≤ sdtLength t ∧ t offset < 10

variable {buffers : MadtArray → Nat}

theorem recordAccesses_inBounds_iff (t : Mem) (buffers : MadtArray → Nat) (offset index : Nat) :
    (∀ a ∈ recordAccesses t offset index, a.InBounds t buffers) ↔
      RecordFits t buffers offset index := by
  rw [recordAccesses, RecordFits]
  cases madtArray (t offset) with
  | some array =>
    simp only [List.forall_mem_cons, MadtAccess.InBounds]
    constructor
    · rintro ⟨⟨hb, hs⟩, hp, -⟩
      exact ⟨hb, hp, hs⟩
    · rintro ⟨hb, hp, hs⟩
      exact ⟨⟨hb, hs⟩, hp, (Nat.le_add_right _ _).trans hp, fun a ha => (nomatch ha)⟩
  | none =>
    simp only [List.forall_mem_cons, MadtAccess.InBounds]
    constructor
    · rintro ⟨hs, hp, -⟩
      exact ⟨hp, hs⟩
    · rintro ⟨hp, hs⟩
      exact ⟨hs, hp, fun a ha => (nomatch ha)⟩

theorem Madt.OnTrack.accesses {P : MadtAccess → Prop} (h : w.OnTrack t)
    (hf : ∀ o i, RecordAt t o i → ∀ a ∈ recordAccesses t o i, P a) (ha : ∀ a ∈ w.accesses, P a)
    (n : Nat) : ∀ a ∈ (madtLoop t n w).accesses, P a := by
  induction n generalizing w with
  | zero => exact ha
  | succ n ih =>
    rw [madtLoop]
    split
    · next hlt =>
      apply ih (h.record hlt)
      intro a hm
      rw [madtRecord_accesses] at hm
      rcases List.mem_append.1 hm with hm | hm
      · exact hf _ _ (h hlt) a hm
      · exact ha a hm
    · exact ha

/-- `parse_madt` reads records, stores entries and looks up type names inside their bounds just
when it does not start to walk or every record on its way fits. -/
theorem madtLoop_inBounds_iff (t : Mem) (buffers : MadtArray → Nat)
    (old : MadtArray → Nat → List (BitVec 8)) (lastType : BitVec 8) :
    (madtFlags t ≠ 0 → ∀ n, ∀ a ∈ (madtLoop t n (Madt.start old lastType)).accesses,
        a.InBounds t buffers) ↔
      (madtFlags t = 0 ∨ ∀ o i, RecordAt t o i → RecordFits t buffers o i) := by
  constructor
  · intro h
    by_cases hf : madtFlags t = 0
    · exact .inl hf
    · right
      intro o i hr
      obtain ⟨n, ho, hi⟩ := hr.reached old lastType
      have hlt := hr.lt
      rw [← ho] at hlt
      rw [← recordAccesses_inBounds_iff]
      intro a ha
      apply h hf (n + 1) a
      rw [madtLoop_add, madtLoop_one hlt, madtRecord_accesses, ho, hi]
      exact List.mem_append_left _ ha
  · rintro (hf | hr) hn n
    · exact absurd hf hn
    · exact (Madt.start_onTrack t old lastType).accesses
        (fun o i h => (recordAccesses_inBounds_iff t buffers o i).2 (hr o i h))
        (fun a ha => (nomatch ha)) n

def unknownTable : Mem := madtTable 0xd4 [0xff, 2]

theorem unknownTable_stray : checksumHeader unknownTable = .ok () ∧
    ¬ (madtFlags unknownTable ≠ 0 →
      ∀ n, ∀ a ∈ (madtLoop unknownTable n (Madt.start (fun _ _ => []) 0)).accesses,
        a.InBounds unknownTable fun _ => 0x1000) := by
  have hf : madtFlags unknownTable ≠ 0 := by decide
  refine ⟨by decide, fun h => ?_⟩
  have hm : MadtAccess.typeString 0xff ∈
      (madtLoop unknownTable 1 (Madt.start (fun _ _ => []) 0)).accesses := by decide
  exact absurd (h hf 1 _ hm) (show ¬ 255 < 10 by decide)

end AdaOS
